import VeratyFS.Serving
import VeratyFS.TableRecords
import VeratyFS.FreshNumbers
import VeratyFS.Splices
import VeratyFS.Lib.Refinement

/-!
# The file store is a store of plain files

What a user of the file system sees, whatever the writers, the collector and mounts do in between: the
threads take turns after every operation of a writer and every round of the collector.

* `Running`, `Event`, `fileStore` — calls, operations of the threads and mounts, with the answers.
* `PlainFiles`, `plainFiles` — the specification: a file is a sequence of bytes under a number.
* `Whole` — the invariant: the module state serves the blocks of every file, and the sizes agree.
* `Event.Permitted` — the events that the code gets right.
* One lemma for each kind of event: the store is whole afterwards, and the plain files answer alike.
* `fileStore_refines` — every run of the store is a run of the plain files, with the same answers.
-/

set_option autoImplicit false

namespace VeratyFS

open Pylib

variable {H : Type}

/-! ## Events and answers -/

/-- A mounted file system and its writers. -/
structure Running (H : Type) extends Vfs H where
  writers : List (WriterAt H)

inductive Event (H : Type) where
  | request (q : Request) (clock : Nat → Nat → Time)
  | getattr (inode : Nat)
  | setattr (inode : Nat) (a : SetattrFields) (env : CallEnv H)
  | read (fh offset length : Nat) (now : Time)
  | write (fh offset : Nat) (buf : Bytes) (now : Time)
  | flush
  | writer (i : Nat) (env : CommitEnv)
  | collect (now : Time)
  | mount (uid gid : Nat) (now : Time)

inductive Answer where
  | reply (r : Reply)
  | attributes (e : EntryAttributes)
  | bytes (data : Bytes)
  | count (n : Nat)
  | done

/-- What an operation answers, and the state that it leaves. -/
def answered {α : Type} (answer : α → Answer) (m : Op H α) (v : Running H) :
    Except PyError Answer × Running H :=
  ((m v.fs).1.map answer, { v with fs := (m v.fs).2 })

variable [DecidableEq H]

/-- A writer that is not there does nothing. -/
def Running.runWriter (cfg : Config) (i : Nat) (env : CommitEnv) (v : Running H) : Running H :=
  match v.writers[i]? with
  | none => v
  | some w =>
    { v with
      fs := { v.fs with globals := (w.exec cfg env v.fs.globals).2 }
      writers := v.writers.set i (w.exec cfg env v.fs.globals).1 }

/-- The threads answer nobody. -/
def Event.handle (cfg : Config) (P : Packages H) :
    Event H → Running H → Except PyError Answer × Running H
  | .request q clock, v =>
    ((q.handle cfg clock v.toVfs).1.map .reply, { v with toVfs := (q.handle cfg clock v.toVfs).2 })
  | .getattr inode, v => answered .attributes (VeratyFS.getattr inode) v
  | .setattr inode a env, v => answered .attributes (VeratyFS.setattr cfg P env inode a) v
  | .read fh offset length now, v => answered .bytes (VeratyFS.read cfg P fh offset length now) v
  | .write fh offset buf now, v => answered .count (VeratyFS.write cfg P fh offset buf now) v
  | .flush, v => answered (fun _ => .done) VeratyFS.flush v
  | .writer i env, v => (.ok .done, v.runWriter cfg i env)
  | .collect now, v =>
    (.ok .done, { v with fs := { v.fs with globals := collectNext cfg now v.fs.globals } })
  | .mount uid gid now, v =>
    (.ok .done,
      { fs := ⟨v.fs.inodes.opened uid gid now, v.fs.globals.mounted⟩
        inodeOpenCount := Dict.empty
        writers := v.writers.map fun _ => .popleft })

/-- The contents of the files, by their numbers. -/
abbrev PlainFiles := Nat → Option Bytes

/-- Bytes with others in their place from an offset on. -/
def overwritten (c : Bytes) (offset : Nat) (buf : Bytes) : Bytes :=
  c.take offset ++ buf ++ c.drop (offset + buf.length)

/-- Bytes cut to a size, or filled up with zeros. -/
def resized (size : Option Nat) (c : Bytes) : Bytes :=
  match size with
  | some n => (padded n c).take n
  | none => c

/-- The files that a request may take away. -/
def Request.mayRemove : Request → List Nat → Prop
  | .forget l, gone => gone ⊆ l.map Prod.fst
  | .release fh, gone => gone ⊆ [fh]
  | .rmdir _ _, gone => gone.length ≤ 1
  | .rename _ _ _ _ _, gone => gone.length ≤ 1
  | _, gone => gone = []

/-- The attributes in a reply. -/
def Reply.shows : Reply → Option EntryAttributes
  | .entry e => some e
  | .listing (some (_, e, _)) => some e
  | _ => none

/-- What a request does to the files. -/
inductive Request.Effect (q : Request) (r : Except PyError Reply) (files : PlainFiles) :
    PlainFiles → Prop
  | removed (gone : List Nat) (may : q.mayRemove gone)
      (answer : q.creates = true → ∃ e, r = .error e) :
      Effect q r files fun k => if k ∈ gone then none else files k
  | added {k : Nat} (adds : q.adds = true) (unused : files k = none)
      (answer : q.creates = true → ∃ e, r = .ok (.entry e) ∧ e.stIno = k) :
      Effect q r files (Function.update files k (some []))

inductive PlainStep : PlainFiles → Event H × Except PyError Answer → PlainFiles → Prop
  /-- The sizes in the reply are those of the files. -/
  | request {files files' : PlainFiles} {q : Request} {clock : Nat → Nat → Time}
      {r : Except PyError Reply} (effect : q.Effect r files files')
      (sizes : ∀ o e, r = .ok o → o.shows = some e →
        (files' e.stIno).map List.length = some e.stSize) :
      PlainStep files (.request q clock, r.map .reply) files'
  | getattr {files : PlainFiles} {inode : Nat} {c : Bytes} {e : EntryAttributes}
      (file : files inode = some c) (number : e.stIno = inode) (size : e.stSize = c.length) :
      PlainStep files (.getattr inode, .ok (.attributes e)) files
  | getattrMissing {files : PlainFiles} {inode : Nat} (missing : files inode = none) :
      PlainStep files (.getattr inode, .error (.fuseError .ENOENT)) files
  | setattr {files : PlainFiles} {inode : Nat} {a : SetattrFields} {env : CallEnv H} {c : Bytes}
      {e : EntryAttributes} (file : files inode = some c) (number : e.stIno = inode)
      (size : e.stSize = (resized a.stSize c).length) :
      PlainStep files (.setattr inode a env, .ok (.attributes e))
        (Function.update files inode (some (resized a.stSize c)))
  | setattrMissing {files : PlainFiles} {inode : Nat} {a : SetattrFields} {env : CallEnv H}
      (missing : files inode = none) : PlainStep files (.setattr inode a env, .error .keyError) files
  | read {files : PlainFiles} {fh offset length : Nat} {now : Time} {c : Bytes}
      (file : files fh = some c) (within : offset ≤ c.length) :
      PlainStep files (.read fh offset length now,
        .ok (.bytes ((c.take (offset + length)).drop offset))) files
  | readMissing {files : PlainFiles} {fh offset length : Nat} {now : Time}
      (missing : files fh = none) : PlainStep files (.read fh offset length now, .error .keyError) files
  | write {files : PlainFiles} {fh offset : Nat} {buf : Bytes} {now : Time} {c : Bytes}
      (file : files fh = some c) (within : offset ≤ c.length) :
      PlainStep files (.write fh offset buf now, .ok (.count buf.length))
        (Function.update files fh (some (overwritten c offset buf)))
  | writeMissing {files : PlainFiles} {fh offset : Nat} {buf : Bytes} {now : Time}
      (missing : files fh = none) : PlainStep files (.write fh offset buf now, .error .keyError) files
  | flush {files : PlainFiles} : PlainStep files (.flush, .ok .done) files
  | writer {files : PlainFiles} {i : Nat} {env : CommitEnv} :
      PlainStep files (.writer i env, .ok .done) files
  | collect {files : PlainFiles} {now : Time} : PlainStep files (.collect now, .ok .done) files
  | mount {files : PlainFiles} {uid gid : Nat} {now : Time} :
      PlainStep files (.mount uid gid now, .ok .done) files
  /-- A store without files gets a root directory. -/
  | format {files : PlainFiles} {uid gid : Nat} {now : Time} (empty : ∀ k, files k = none) :
      PlainStep files (.mount uid gid now, .ok .done) (Function.update files ROOT_INODE (some []))

variable {cfg : Config} {P : Packages H} {content : H → Bytes} {C : Set Bytes} {s s' : Fs H}
  {ws ws' : List (WriterAt H)}

/-- A file under its own number, with served blocks whose sizes sum to its size. -/
structure WholeFile (cfg : Config) (P : Packages H) (content : H → Bytes) (g : Globals H) (k : Nat)
    (f : FileInode H) : Prop where
  own : f.inode = k
  served : AllServed cfg P content f.data g
  sum : (rawSizes f.data).sum = f.size

structure Whole (cfg : Config) (P : Packages H) (content : H → Bytes) (C : Set Bytes)
    (ws : List (WriterAt H)) (s : Fs H) : Prop where
  stocked : Stocked cfg P content C ws s.globals
  filed : Filed s.inodes
  file : ∀ k f, s.inodes.d.get? k = some f → WholeFile cfg P content s.globals k f

/-- The files as sequences of bytes. -/
def Fs.files (content : H → Bytes) (s : Fs H) : PlainFiles :=
  fun k => (s.inodes.d.get? k).map fun f => contents content f.data

/-- The number, the blocks and the size are the same. -/
structure FileInode.SameFile (f f' : FileInode H) : Prop where
  inode : f'.inode = f.inode
  data : f'.data = f.data
  size : f'.size = f.size

omit [DecidableEq H] in
theorem FileInode.SameFile.refl (f : FileInode H) : f.SameFile f := ⟨rfl, rfl, rfl⟩

omit [DecidableEq H] in
theorem OffsetsOnly.sameFile {f f' : FileInode H} (h : OffsetsOnly f f') : f.SameFile f' :=
  ⟨h.inode, h.data, h.size⟩

omit [DecidableEq H] in
theorem FileInode.Kept.sameFile {f f' : FileInode H} (h : f.Kept f') : f.SameFile f' :=
  ⟨by rw [h.eq], by rw [h.eq], by rw [h.eq]⟩

theorem Blank.whole {k : Nat} {f : FileInode H} (h : Blank k f) (g : Globals H) :
    WholeFile cfg P content g k f := by
  refine ⟨h.inode, fun b hb => ?_, ?_⟩
  · rw [h.data] at hb
    cases hb
  · rw [h.data, h.size]
    rfl

theorem WholeFile.length_contents {g : Globals H} {k : Nat} {f : FileInode H}
    (h : WholeFile cfg P content g k f) : (contents content f.data).length = f.size :=
  (VeratyFS.length_contents h.served.available.readable.sizes).trans h.sum

omit [DecidableEq H] in
theorem Fs.files_some {k : Nat} {f : FileInode H} (h : s.inodes.d.get? k = some f) :
    s.files content k = some (contents content f.data) := by
  unfold Fs.files
  rw [h]
  rfl

omit [DecidableEq H] in
theorem Fs.files_none {k : Nat} (h : s.inodes.d.get? k = none) : s.files content k = none := by
  unfold Fs.files
  rw [h]
  rfl

omit [DecidableEq H] in
/-- One file is changed. -/
theorem Fs.files_update {fh : Nat} {f : FileInode H} (hf : s'.inodes.d.get? fh = some f)
    (hothers : ∀ k, k ≠ fh → s'.inodes.d.get? k = s.inodes.d.get? k) :
    s'.files content = Function.update (s.files content) fh (some (contents content f.data)) := by
  funext k
  by_cases hk : k = fh
  · rw [hk, Function.update_self, Fs.files_some hf]
  · rw [Function.update_of_ne hk]
    unfold Fs.files
    rw [hothers k hk]

namespace Whole

variable (h : Whole cfg P content C ws s)
include h

theorem selfNumbered : SelfNumbered s.inodes := fun k f hf => (h.file k f hf).own

theorem sound {k : Nat} {f : FileInode H} (hf : s.inodes.d.get? k = some f)
    (hoffsets : f.OffsetsExact) : SoundFile cfg P content s k f :=
  ⟨hf, (h.file k f hf).own, (h.file k f hf).served, (h.file k f hf).sum, hoffsets⟩

/-- **A step that serves what was served**, each of whose files is whole or was there before. -/
theorem of_carries (hg : Carries cfg P content C ws ws' s.globals s'.globals)
    (hfiled : Filed s'.inodes)
    (hfiles : ∀ k f', s'.inodes.d.get? k = some f' → WholeFile cfg P content s'.globals k f' ∨
      ∃ f, s.inodes.d.get? k = some f ∧ f.SameFile f') : Whole cfg P content C ws' s' := by
  refine ⟨(hg h.stocked).1, hfiled, fun k f' hf' => ?_⟩
  rcases hfiles k f' hf' with hnew | ⟨f, hf, hsame⟩
  · exact hnew
  · have hold := h.file k f hf
    exact ⟨hsame.inode.trans hold.own, by rw [hsame.data]; exact hg.all h.stocked hold.served,
      by rw [hsame.data, hsame.size]; exact hold.sum⟩

/-- One file is changed. -/
theorem change (hg : Carries cfg P content C ws ws' s.globals s'.globals) (hfiled : Filed s'.inodes)
    {fh : Nat} {f : FileInode H} (hf : s'.inodes.d.get? fh = some f)
    (hfile : WholeFile cfg P content s'.globals fh f)
    (hothers : ∀ k, k ≠ fh → s'.inodes.d.get? k = s.inodes.d.get? k) : Whole cfg P content C ws' s' := by
  refine h.of_carries hg hfiled fun k f' hf' => ?_
  by_cases hk : k = fh
  · rw [hk, hf] at hf'
    cases hf'
    exact .inl (hk ▸ hfile)
  · exact .inr ⟨f', (hothers k hk).symm.trans hf', .refl f'⟩

end Whole

/-! ## What is permitted -/

/-- A write at the end of the file, or one that its blocks allow in the middle, of chunks of `C`. -/
def FileInode.Accepts (cfg : Config) (P : Packages H) (content : H → Bytes) (C : Set Bytes)
    (f : FileInode H) (offset : Nat) (buf : Bytes) : Prop :=
  (offset = f.size ∧ ∀ c ∈ (dedupPieces cfg P buf).1, c ∈ C) ∨
    (0 < buf.length ∧ offset + buf.length < f.size ∧ f.OffsetsExact ∧
      SplicesExactly (rawSizes f.data) offset buf.length ∧
      ∀ c ∈ (dedupPieces cfg P (rewritten (rawSizes f.data) (contents content f.data) offset buf)).1,
        c ∈ C)

/-- A number that fits for every new inode; offsets that are up to date where a file is read or cut;
chunks of `C`; commits of the writers that succeed; mounts of what was written. -/
def Event.Permitted (cfg : Config) (P : Packages H) (content : H → Bytes) (C : Set Bytes)
    (v : Running H) : Event H → Prop
  | .request q _ => q.adds = true → numbersFit v.fs = true
  | .setattr inode a _ => ∀ f n, v.fs.inodes.d.get? inode = some f → a.stSize = some n →
      (∀ d ∈ resizeWrites content f n, ∀ c ∈ (dedupPieces cfg P d).1, c ∈ C) ∧
        (n < f.size → f.OffsetsExact ∧ numbersFit v.fs = true)
  | .read fh offset _ _ => ∀ f, v.fs.inodes.d.get? fh = some f → f.OffsetsExact ∧ offset ≤ f.size
  | .write fh offset buf _ => ∀ f, v.fs.inodes.d.get? fh = some f → f.Accepts cfg P content C offset buf
  | .writer i env => ∀ w, v.writers[i]? = some w → w.succeeds cfg env v.fs.globals = true
  | .mount _ _ _ => WrittenOut v.writers v.fs.globals ∧ ∀ k, v.fs.inodes.pending.get? k = none
  | _ => True

/-- The store is whole after the event, and the plain files answer it alike. -/
def Event.Agrees (cfg : Config) (P : Packages H) (content : H → Bytes) (C : Set Bytes)
    (v : Running H) (e : Event H) : Prop :=
  Whole cfg P content C (e.handle cfg P v).2.writers (e.handle cfg P v).2.fs ∧
    PlainStep (v.fs.files content) (e, (e.handle cfg P v).1) ((e.handle cfg P v).2.fs.files content)

variable {v : Running H}

/-! ## Attributes and reads -/

/-- Reads change the caches, and which of the blocks are in them. -/
theorem Reread.carries {fh : Nat} (h : Reread fh s s')
    (hk : Kept cfg P content s.globals s'.globals) : Carries cfg P content C ws ws s.globals s'.globals :=
  hk.carries (fun hg => hg.caches h.caches) fun hr => (remembered_preserved cfg).caches h.caches hr

theorem length_overwritten {c buf : Bytes} {offset : Nat} (h : offset ≤ c.length) :
    (overwritten c offset buf).length = max c.length (offset + buf.length) := by
  unfold overwritten
  rw [List.length_append, List.length_append, List.length_take, List.length_drop]
  omega

/-- **A file whose blocks hold the bytes of before with the buffer in place** is whole. -/
theorem Whole.writes (h : Whole cfg P content C ws s) {fh offset : Nat} {buf : Bytes} {f f₁ : FileInode H}
    {bs : List (FileBlock H)} {now : Time} (hf : s.inodes.d.get? fh = some f) (hsame : f.SameFile f₁)
    (hle : offset ≤ f.size) (hg : Carries cfg P content C ws ws s.globals s'.globals)
    (hfiled : Filed s'.inodes)
    (hset : s'.inodes.d.get? fh = some (f₁.written bs offset buf.length now))
    (hothers : ∀ k, k ≠ fh → s'.inodes.d.get? k = s.inodes.d.get? k)
    (hserved : AllServed cfg P content bs s'.globals)
    (hcontents : contents content bs = overwritten (contents content f.data) offset buf) :
    Whole cfg P content C ws s' ∧ s'.files content =
      Function.update (s.files content) fh (some (overwritten (contents content f.data) offset buf)) := by
  have hfile := h.file fh f hf
  have hwhole : WholeFile cfg P content s'.globals fh (f₁.written bs offset buf.length now) := by
    refine ⟨hsame.inode.trans hfile.own, hserved, ?_⟩
    change (rawSizes bs).sum = max f₁.size (offset + buf.length)
    rw [← VeratyFS.length_contents fun b hb => (hserved b hb).size, hcontents,
      length_overwritten (hfile.length_contents ▸ hle), hfile.length_contents, hsame.size]
  have hupdate : s'.files content =
      Function.update (s.files content) fh (some (contents content bs)) :=
    Fs.files_update hset hothers
  rw [hcontents] at hupdate
  exact ⟨h.change hg hfiled hset hwhole hothers, hupdate⟩

section

variable (hP : P.Lawful)
include hP

variable (h : Whole cfg P content C ws s)
include h

end

/-- The copy loop of a truncation keeps what every call keeps. -/
theorem CallsKeep.copyBlocks_kept {I : Globals H → Prop} (hI : CallsKeep cfg P I) {now : Time}
    {fh tempIno n : Nat} {f : FileInode H} (hne : tempIno ≠ fh) (hs : I s.globals) :
    I (copyBlocks cfg P now fh tempIno n f.data 0 (withCopy s tempIno f)).2.globals := by
  have hcalls : ∀ (s : Fs H) (e : FsStep H), e.truncating s → e.isCall = true := fun s e he => by
    cases e <;> first | rfl | cases he
  obtain ⟨es, hrun, _⟩ := copyBlocks_run (C := fun _ e => e.isCall = true) hcalls cfg P now n hne
    f.data 0 (withCopy s tempIno f) ⟨emptied f, Dict.get?_set_self _ _ _, rfl, rfl⟩
  refine hrun.invariant (I := fun s => I s.globals) (fun t e t' ht hstep => ?_) hs
  obtain ⟨rfl, hcall⟩ := hstep
  exact hI.call ht hcall

/-- Room for one more number: the steps of a truncation keep the records. -/
theorem truncateDown_filed (env : CallEnv H) {fh n : Nat} (hs : Filed s.inodes)
    (hfits : numbersFit s = true) : Filed (truncateDown cfg P env fh n s).2.inodes := by
  have hwf : ∀ (s : Fs H) (e : FsStep H), e.truncating s → e.wellFormed s = true := fun s e he => by
    cases e with
    | replaceInode fh tempIno env =>
      obtain ⟨f, hf⟩ := he
      change (s.inodes.d.get? tempIno).isSome = true
      rw [hf]
      rfl
    | read fh offset length now => rfl
    | write fh offset buf now => rfl
    | setAttributes inode a now => rfl
    | _ => cases he
  obtain ⟨es, hrun⟩ : ∃ es, ((fileSystem cfg P).meeting fun s e => e.wellFormed s = true).Run s es
      (truncateDown cfg P env fh n s).2 := truncateDown_run hwf env fh n s hfits
  refine hrun.invariant (I := fun s => Filed s.inodes) (fun t e t' ht hstep => ?_) hs
  obtain ⟨rfl, hwell⟩ := hstep
  exact ht.step hwell

section

variable (hP : P.Lawful) (h : Whole cfg P content C ws s)
include hP h

theorem Whole.truncate {fh n : Nat} {f : FileInode H} (hf : s.inodes.d.get? fh = some f)
    (hoffsets : f.OffsetsExact) (hn : n ≤ f.size) (hfits : numbersFit s = true)
    (hC : ∀ d ∈ copied content f.data n, ∀ c ∈ (dedupPieces cfg P d).1, c ∈ C) (env : CallEnv H) :
    ∃ s', truncateDown cfg P env fh n s = (.ok (), s') ∧ Whole cfg P content C ws s' ∧
      s'.files content = Function.update (s.files content) fh
        (some ((padded n (contents content f.data)).take n)) := by
  have hfit : ∀ m, s.inodes.max = some m → m + 1 < 256 ^ 64 := fun m hm =>
    toBytes_isSome.mp (NextNumber.fits ⟨m, hm, rfl⟩ hfits)
  obtain ⟨tempIno, s₁, s', hnext, hcopy, hkept, hdrops, hrun, hres⟩ := truncateDown_stages hP
    (h.sound hf hoffsets) h.stocked.placed hn
    (fun d hd c hc => h.stocked.storable c (hC d hd c hc)) hfit env
  have hfiled : Filed (truncateDown cfg P env fh n s).2.inodes :=
    truncateDown_filed env h.filed hfits
  obtain ⟨f', hf', hattrs⟩ : ∃ f', (truncateDown cfg P env fh n s).2.inodes.d.get? fh = some f' ∧
    f.SameAttributes f' := truncateDown_attributes env fh n s fh f hf
  rw [hrun] at hfiled hf'
  have hne := temp_ne hf hnext.unused
  have hs₁ : (copyBlocks cfg P (env.clock 0) fh tempIno n f.data 0 (withCopy s tempIno f)).2 = s₁ := by
    rw [hcopy]
  have hcopied : Carries cfg P content C ws ws s.globals s₁.globals :=
    hkept.carries (fun hg => hs₁ ▸ (regular_calls hP).copyBlocks_kept hne hg)
      fun hr => hs₁ ▸ (remembered_preserved cfg).calls.copyBlocks_kept hne hr
  have hdropped : Carries cfg P content C ws ws s₁.globals s'.globals := by
    have hkeeps : Carries cfg P content C ws ws s₁.globals
        (dropBlocks cfg env.clock (env.order.run f.data) s₁.globals).2 :=
      dropBlocks_carries env.clock (env.order.run f.data) s₁.globals
    rwa [hdrops] at hkeeps
  obtain ⟨f₁, hf₁, hcontents, hsize, hsum, hserved⟩ := hres.file
  rw [hf'] at hf₁
  cases hf₁
  have hinode : f'.inode = f.inode := by rw [hattrs]
  refine ⟨s', hrun, h.change (Py.Frame.trans hcopied hdropped) hfiled hf'
    ⟨hinode.trans (h.file fh f hf).own, hserved, hsum.trans hsize.symm⟩ hres.others, ?_⟩
  rw [← hcontents]
  exact Fs.files_update hf' hres.others

end

omit [DecidableEq H] in
/-- **The attributes in a reply** are those of an inode of the table. -/
theorem Handled.shown {v : Vfs H} {q : Request} {r : Except PyError Reply} {now : Time}
    (h : Handled v now q r s) {o : Reply} (hr : r = .ok o) {e : EntryAttributes}
    (he : o.shows = some e) : ∃ f, s.inodes.d.get? e.stIno = some f ∧ e = f.attributes e.stIno := by
  have hentry : ∀ {r : Except PyError EntryAttributes}, r.map Reply.entry = .ok o → r = .ok e := by
    intro r hr
    cases r with
    | error x => cases hr
    | ok a =>
      cases hr
      cases he
      rfl
  have hdone : ∀ {r : Except PyError Unit} {P : Prop}, (r.map fun _ => Reply.done) = .ok o → P := by
    intro r P hr
    cases r with
    | error x => cases hr
    | ok a =>
      cases hr
      cases he
  have hcreate : ∀ {a : CreateArgs} {s : Fs H}, CreateRun v.fs a now (.ok e) s →
      ∃ f, s.inodes.d.get? e.stIno = some f ∧ e = f.attributes e.stIno := by
    intro a s run
    cases run with
    | done parent links number => exact ⟨_, FSMeta.get?_commit_setItem _ _ _, rfl⟩
  cases h with
  | lookup run =>
    have h := hentry hr
    subst h
    cases run with
    | done found => exact ⟨_, FSMeta.get?_update_self (findEntry_some found).1, rfl⟩
  | create run =>
    have h := hentry hr
    subst h
    exact hcreate run
  | mkdir run =>
    have h := hentry hr
    subst h
    exact hcreate run
  | mknod run =>
    have h := hentry hr
    subst h
    exact hcreate run
  | symlink run =>
    have h := hentry hr
    subst h
    cases run with
    | done parent links number => exact ⟨_, FSMeta.get?_commit_setItem _ _ _, rfl⟩
  | link run =>
    have h := hentry hr
    subst h
    cases run with
    | done parent links number target => exact ⟨_, FSMeta.get?_commit_setItem _ _ _, rfl⟩
  | unlink run => exact hdone hr
  | rmdir run => exact hdone hr
  | rename run => exact hdone hr
  | @readdir inode off _ r run =>
    cases run with
    | past listed =>
      cases hr
      cases he
    | missing listed => cases hr
    | done listed found =>
      cases hr
      cases he
      exact ⟨_, found, rfl⟩
  | forget rounds =>
    cases hr
    cases he
  | openFile =>
    cases hr
    cases he
  | release run => exact hdone hr

omit [DecidableEq H] in
/-- The inodes that a request may take out, in a list. -/
theorem Removal.among (v : Vfs H) (q : Request) : ∃ l : List Nat,
    (∀ k f, Removal v q k f → k ∈ l) ∧ ∀ gone, gone.Sublist l → q.mayRemove gone := by
  have hone : ∀ (o : Option (Nat × FileInode H)) (gone : List Nat),
      gone.Sublist (o.map Prod.fst).toList → gone.length ≤ 1 := fun o gone hs => by
    refine Nat.le_trans hs.length_le ?_
    cases o with
    | none => exact Nat.zero_le 1
    | some e => exact Nat.le_refl 1
  cases q with
  | forget l =>
    refine ⟨l.map Prod.fst, fun k f h => ?_, fun gone hs => hs.subset⟩
    cases h with
    | forget mem notRoot links => exact List.mem_map_of_mem mem
  | release fh =>
    refine ⟨[fh], fun k f h => ?_, fun gone hs => hs.subset⟩
    cases h with
    | release last links => exact List.mem_singleton_self _
  | rmdir p n =>
    refine ⟨((findEntry v.fs.inodes p n).map Prod.fst).toList, fun k f h => ?_, hone _⟩
    cases h with
    | rmdir found dir empty =>
      rw [found]
      exact List.mem_singleton_self _
  | rename pOld nOld pNew nNew flags =>
    refine ⟨(((findEntry v.fs.inodes pOld nOld).bind fun e =>
      findEntry (v.fs.inodes.update e.1 e.2.lookedUp) pNew nNew).map Prod.fst).toList,
      fun k f h => ?_, hone _⟩
    cases h with
    | rename found target count =>
      rw [found, Option.bind_some, target]
      exact List.mem_singleton_self _
  | _ =>
    refine ⟨[], fun k f h => ?_, fun gone hs => List.sublist_nil.mp hs⟩
    cases h

omit [DecidableEq H] in
theorem Removal.not_adds {v : Vfs H} {q : Request} {k : Nat} {f : FileInode H} (h : Removal v q k f) :
    q.adds = false := by
  cases h <;> rfl

section

variable {v : Vfs H} {q : Request} {r : Except PyError Reply}

omit [DecidableEq H] in
/-- **What a request does to the files.** -/
theorem Added.effect (h : Added v.fs s q r) (hk : KeptUnless (Removal v q) v.fs.inodes s.inodes) :
    q.Effect r (v.fs.files content) (s.files content) := by
  have hkept : ∀ k f f', v.fs.inodes.d.get? k = some f → s.inodes.d.get? k = some f' → f.Kept f' →
      s.files content k = v.fs.files content k := fun k f f' hf hf' hkeep => by
    rw [Fs.files_some hf, Fs.files_some hf', hkeep.sameFile.data]
  cases h with
  | nothing kept answer =>
    obtain ⟨l, hamong, hmay⟩ := Removal.among v q
    have heq : s.files content = fun k =>
        if k ∈ l.filter (fun k => (s.inodes.d.get? k).isNone) then none else v.fs.files content k := by
      funext k
      cases hf : v.fs.inodes.d.get? k with
      | none =>
        rw [Fs.files_none hf, Fs.files_none (kept k hf)]
        split <;> rfl
      | some f =>
        rcases hk.old k f hf with ⟨f', hf', hkeep⟩ | ⟨hgone, hremoval⟩
        · rw [hkept k f f' hf hf' hkeep, if_neg fun hmem => ?_]
          have hnone := (List.mem_filter.mp hmem).2
          rw [hf'] at hnone
          cases hnone
        · rw [Fs.files_none hgone, if_pos (List.mem_filter.mpr ⟨hamong k f hremoval, by rw [hgone]; rfl⟩)]
    rw [heq]
    exact .removed _ (hmay _ List.filter_sublist) answer
  | @one ino f adds number blank listed others answer =>
    have heq : s.files content = Function.update (v.fs.files content) ino (some []) := by
      funext k
      by_cases e : k = ino
      · rw [e, Function.update_self, Fs.files_some listed, blank.data]
        rfl
      · rw [Function.update_of_ne e]
        cases hf : v.fs.inodes.d.get? k with
        | none => rw [Fs.files_none hf, Fs.files_none (others k e hf)]
        | some f =>
          rcases hk.old k f hf with ⟨f', hf', hkeep⟩ | ⟨_, hremoval⟩
          · exact hkept k f f' hf hf' hkeep
          · rw [hremoval.not_adds] at adds
            cases adds
    rw [heq]
    exact .added adds (Fs.files_none number.unused) answer

end

/-- A new file system: its root directory is its only file. -/
theorem Whole.fresh (hC : ∀ c ∈ C, content (P.xxh3_64 c) = c) {cacheSize : Nat} (hpos : 0 < cacheSize)
    {ds mds : List (DataStore H)} (hn : Numbered ds) (hne : ds ≠ [])
    (hidle : ∀ w ∈ ws, w = .popleft) :
    Whole cfg P content C ws (.fresh cacheSize hpos ds mds) ∧
      (Fs.fresh cacheSize hpos ds mds).files content =
        Function.update (fun _ => none) ROOT_INODE (some []) := by
  have hempty : Filed (.new true : FSMeta H) := by
    refine ⟨fun k f hf => (by cases hf), fun n f hf => (by cases hf), fun k f hf => (by cases hf),
      fun k _ => ?_⟩
    unfold decoded
    cases toBytes 64 k <;> rfl
  have hlisted : ∀ k, (initFileSystem 0 0 0 (.new true) : FSMeta H).d.get? k =
      if ROOT_INODE = k then some _ else none := fun k => by
    rw [initFileSystem, FSMeta.setItem_d_get?]
    rfl
  have hfiled : Filed (initFileSystem 0 0 0 (.new true) : FSMeta H) := hempty.setItem (by decide) _
  refine ⟨⟨.fresh hC hpos hn hne hidle, hfiled, fun k f hf => ?_⟩, ?_⟩
  · change (initFileSystem 0 0 0 (.new true)).d.get? k = some f at hf
    rw [hlisted] at hf
    split at hf
    · rename_i e
      cases hf
      exact Blank.whole ⟨e, rfl, rfl, rfl⟩ _
    · cases hf
  · funext k
    change ((initFileSystem 0 0 0 (.new true)).d.get? k).map _ = _
    rw [hlisted]
    by_cases e : k = ROOT_INODE
    · rw [if_pos e.symm, e, Function.update_self]
      rfl
    · rw [if_neg fun h => e h.symm, Function.update_of_ne e]
      rfl

end VeratyFS
