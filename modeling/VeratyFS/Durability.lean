import VeratyFS.FileStore
import VeratyFS.StoredBlocks

/-!
# A flushed file survives

What a crash can take away: a file whose blocks were written when it was flushed is read back after
any later mount, as long as nobody writes to it, cuts it or removes it.

* `Safe` — the inode is the same in memory and in the database, up to counters and attributes.
* `write_safe`, `truncateDown_safe`, `setattr_safe`, `Safe.request`, `Safe.opened` — calls about
  other files, also when they fail, and mounts.
* `Event.Spares` — the events of which the file is not the subject; crashes are among them.
* `OnDisk.handle` — such an event leaves the inode and the blocks of the file on the disk.
* `flushed_survives` — every run.
-/

set_option autoImplicit false
set_option maxRecDepth 1024

namespace VeratyFS

open Pylib

variable {H : Type}

/-! ## The record of a file -/

/-- An inode with the blocks and the size of the file, and with offsets that are up to date. -/
structure FileInode.Saved (bs : List (FileBlock H)) (n : Nat) (f : FileInode H) : Prop where
  data : f.data = bs
  size : f.size = n
  offsets : f.OffsetsExact

/-- The file `k` is in memory and has a record, and both say the same of its blocks. -/
structure Safe (k : Nat) (bs : List (FileBlock H)) (n : Nat) (t : FSMeta H) : Prop where
  filed : Filed t
  listed : ∃ f, t.d.get? k = some f ∧ f.Saved bs n
  record : ∃ f, decoded t.ht k = some f ∧ f.Saved bs n

variable {k n : Nat} {bs : List (FileBlock H)} {t t' : FSMeta H}

theorem FileInode.Saved.of_reloaded {f f' : FileInode H} (h : f.Saved bs n)
    (he : f'.reloaded = f.reloaded) : f'.Saved bs n := by
  have hdata : f'.data = f.data := congrArg (·.data) he
  have hsize : f'.size = f.size := congrArg (·.size) he
  have hoffsets : f'.offsets = f.offsets := congrArg (·.offsets) he
  refine ⟨hdata.trans h.data, hsize.trans h.size, ?_⟩
  unfold FileInode.OffsetsExact
  rw [hoffsets, hdata]
  exact h.offsets

theorem OffsetsOnly.saved {f f' : FileInode H} (h : OffsetsOnly f f') (hf : f.Saved bs n) :
    f'.Saved bs n := ⟨h.data.trans hf.data, h.size.trans hf.size, h.exact hf.offsets⟩

namespace Safe

/-- The file is in memory, and its record is that of before, or a commit has written it. -/
theorem of_flushed (h : Safe k bs n t) (hfiled : Filed t') (hflushed : Flushed t t')
    (hlisted : ∃ f, t'.d.get? k = some f ∧ f.Saved bs n) : Safe k bs n t' := by
  refine ⟨hfiled, hlisted, ?_⟩
  obtain ⟨f, hf, hsaved⟩ := hlisted
  rcases hflushed with hnone | hsame
  · have hrecord := hfiled.recorded.records k (hnone k)
    rw [hf] at hrecord
    obtain ⟨f', hf', heq⟩ := Option.map_eq_some_iff.mp hrecord
    exact ⟨f', hf', hsaved.of_reloaded heq⟩
  · rw [hsame k f hf]
    exact h.record

theorem setItem (h : Safe k bs n t) {x : Nat} (hx : (toBytes 64 x).isSome) {v : FileInode H}
    (hv : x = k → v.Saved bs n) : Safe k bs n (t.setItem x v) := by
  refine h.of_flushed (h.filed.setItem hx v) (.of_ht rfl) ?_
  rw [FSMeta.setItem_d_get?]
  split
  · rename_i e
    exact ⟨v, rfl, hv e⟩
  · exact h.listed

/-- An inode of the table is set. -/
theorem reset (h : Safe k bs n t) {x : Nat} {f v : FileInode H} (hf : t.d.get? x = some f)
    (hv : x = k → v.Saved bs n) : Safe k bs n (t.setItem x v) :=
  h.setItem (h.filed.fits x f hf) hv

theorem commit (h : Safe k bs n t) : Safe k bs n t.commit := by
  refine h.of_flushed h.filed.commit (.commit t t) ?_
  rw [FSMeta.commit_d]
  exact h.listed

theorem delItem (h : Safe k bs n t) {x : Nat} (hx : x ≠ k) : Safe k bs n (t.delItem x).2 := by
  refine h.of_flushed (h.filed.delItem x) (.delItem t x) ?_
  rcases t.delItem_d_get? x k with e | ⟨e, _⟩
  · rw [e]
    exact h.listed
  · exact absurd e hx

/-- **A mount** loads the record. -/
theorem opened (h : Safe k bs n t) (uid gid : Nat) (now : Time) :
    Safe k bs n (t.opened uid gid now) := by
  have hkeyed := h.filed.recorded.keyed
  obtain ⟨f, hf, hsaved⟩ := h.record
  have hload : t.initFromDisk.d.get? k = some f.reloaded := by
    rw [initFromDisk_d_get? hkeyed, hf]
    rfl
  have hopened : t.opened uid gid now = t.initFromDisk := by
    unfold FSMeta.opened
    refine if_neg fun hsize => ?_
    rw [(Dict.size_eq_zero _).mp hsize] at hload
    cases hload
  rw [hopened]
  exact ⟨.loaded hkeyed, ⟨_, hload, hsaved.of_reloaded rfl⟩, h.record⟩

end Safe

/-! ## Calls about other files -/

variable [DecidableEq H] {cfg : Config} {P : Packages H} {content : H → Bytes} {C : Set Bytes}

/-- What a computation keeps of the file. -/
def SafeStays (k : Nat) (bs : List (FileBlock H)) (n : Nat) (s s' : Fs H) : Prop :=
  Py.Stays (Safe k bs n) s.inodes s'.inodes

omit [DecidableEq H] in
instance : Py.Frame (SafeStays k bs n) := ⟨fun _ h => h, fun h h' hs => h' (h hs)⟩

omit [DecidableEq H] in
/-- The offsets are computed with the record away for a moment, and committed with it. -/
theorem ensureOffsets_safe (fh : Nat) (f : FileInode H) :
    Py.Keeps (SafeStays k bs n) (ensureOffsets fh f) := by
  unfold ensureOffsets
  split
  · intro s hs
    cases hf : s.inodes.d.get? fh with
    | none =>
      rw [Py.run_bind_error (show calcOffsets fh s = (.error .keyError, s) from
        Py.run_bind_error (inodeAt_missing hf))]
      exact hs
    | some f' =>
      have hfiled : Filed (calcOffsets fh s).2.inodes := calcOffsets_filed fh s hs.filed
      have hlisted : ∃ f, (calcOffsets fh s).2.inodes.d.get? k = some f ∧ f.Saved bs n := by
        obtain ⟨f₀, hf₀, hsaved⟩ := hs.listed
        obtain ⟨f₁, hf₁, ho⟩ : ∃ f₁, (calcOffsets fh s).2.inodes.d.get? k = some f₁ ∧
            OffsetsOnly f₀ f₁ := by
          have hkeeps : Reread fh s (calcOffsets fh s).2 := calcOffsets_keeps fh s
          by_cases e : k = fh
          · subst e
            obtain ⟨f₁, hf₁, ho⟩ := hkeeps.of_some hf₀
            exact ⟨f₁, hf₁, ho⟩
          · exact ⟨f₀, (hkeeps.others k e).trans hf₀, .refl f₀⟩
        exact ⟨f₁, hf₁, ho.saved hsaved⟩
      rw [calcOffsets_eq hf] at hfiled hlisted
      rw [Py.run_bind_ok (calcOffsets_eq hf)]
      generalize ((s.inodes.update fh f'.withOffsets).delItem fh).2.setItem fh f'.withOffsets = t₁
        at hfiled hlisted
      have hcommit : Safe k bs n t₁.commit := by
        refine hs.of_flushed hfiled.commit (.commit _ t₁) ?_
        rw [FSMeta.commit_d]
        exact hlisted
      exact inodeAt_keeps (R := SafeStays k bs n) fh ⟨t₁.commit, s.globals⟩ hcommit
  · exact Py.keeps_pure _

theorem retrieveData_safe (fh offset length : Nat) (whole : Bool) :
    Py.Keeps (SafeStays k bs n) (retrieveData cfg P fh offset length whole) := by
  refine Py.keeps_bind Py.keeps_read fun s => ?_
  split
  · exact Py.keeps_pure _
  · split
    · exact Py.keeps_pure _
    · refine Py.keeps_bind (ensureOffsets_safe fh _) fun f => ?_
      have hblocks : ∀ i j : Int,
          Py.Keeps (SafeStays k bs n) (Fs.onGlobals (getFileData cfg P f.data i j)) :=
        fun _ _ _ hs => hs
      exact retrieveBlocks_keeps hblocks offset length whole

/-- A read, also one of the file. -/
theorem read_safe (fh offset length : Nat) (now : Time) :
    Py.Keeps (SafeStays k bs n) (read cfg P fh offset length now) := by
  refine Py.keeps_bind (retrieveData_safe fh offset length false) fun r s hs => ?_
  cases hf : s.inodes.d.get? fh with
  | none =>
    rw [Py.run_bind_error (inodeAt_missing hf)]
    exact hs
  | some f =>
    rw [Py.run_bind_ok (inodeAt_run hf)]
    refine hs.reset hf fun e => ?_
    obtain ⟨f₀, hf₀, hsaved⟩ := hs.listed
    rw [e, hf₀] at hf
    cases hf
    exact ⟨hsaved.data, hsaved.size, hsaved.offsets⟩

theorem write_safe {fh : Nat} (hne : fh ≠ k) (offset : Nat) (buf : Bytes) (now : Time) :
    Py.Keeps (SafeStays k bs n) (write cfg P fh offset buf now) := by
  intro s hs
  cases hf : s.inodes.d.get? fh with
  | none =>
    rw [write_missing hf]
    exact hs
  | some f =>
    have hfit := hs.filed.fits fh f hf
    have hfinish : ∀ f : FileInode H,
        Py.Keeps (SafeStays k bs n) (finishWrite fh offset buf.length now f) := fun f =>
      Py.keeps_bind (fun _ hs => hs.setItem hfit fun e => absurd e hne) fun _ => Py.keeps_pure _
    have hmiddle : Py.Keeps (SafeStays k bs n) (writeMiddle cfg P fh offset buf) := by
      refine Py.keeps_bind (retrieveData_safe fh offset buf.length true) fun o => ?_
      cases o with
      | data d => exact Py.keeps_raise _
      | whole sd sb eb data =>
        refine Py.keeps_bind (fun _ hs => hs) fun blks => ?_
        exact Py.keeps_bind (inodeAt_keeps fh) fun f => Py.keeps_pure _
    have hkeeps : Py.Keeps (SafeStays k bs n) (write cfg P fh offset buf now) := by
      refine Py.keeps_bind (inodeAt_keeps fh) fun f => ?_
      split
      · refine Py.keeps_bind (Py.keeps_attempt (Py.keeps_bind hmiddle fun f => Py.keeps_pure _)
          fun e => ?_) fun written => ?_
        · split
          · exact Py.keeps_pure _
          · exact Py.keeps_raise _
        · cases written with
          | none => exact Py.keeps_pure _
          | some f => exact hfinish f
      · exact Py.keeps_bind (fun _ hs => hs) fun blks => hfinish _
    exact hkeeps s hs

theorem copyBlocks_safe {fh tempIno newSize : Nat} (hne : tempIno ≠ k) (now : Time) :
    ∀ (rest : List (FileBlock H)) (offset : Nat),
      Py.Keeps (SafeStays k bs n) (copyBlocks cfg P now fh tempIno newSize rest offset)
  | [], _ => Py.keeps_pure _
  | i :: rest, offset => by
    rw [copyBlocks]
    split
    · refine Py.keeps_bind (read_safe _ _ _ _) fun dat =>
        Py.keeps_bind (write_safe hne _ _ _) fun written => ?_
      split
      · exact Py.keeps_pure _
      · exact copyBlocks_safe hne now rest _
    · exact Py.keeps_bind (read_safe _ _ _ _) fun dat =>
        Py.keeps_bind (write_safe hne _ _ _) fun written => Py.keeps_pure _

/-- A truncation of another file, also one that stops half-way. -/
theorem truncateDown_safe {fh : Nat} (hne : fh ≠ k) (env : CallEnv H) (newSize : Nat) {s : Fs H}
    (hs : Safe k bs n s.inodes) (hroom : numbersFit s = true) :
    Safe k bs n (truncateDown cfg P env fh newSize s).2.inodes := by
  unfold truncateDown
  cases hf : s.inodes.d.get? fh with
  | none =>
    rw [Py.run_bind_error (copyInode_missing hf)]
    exact hs
  | some f =>
    obtain ⟨tempIno, hnext, hcopy⟩ := copyInode_run hf
    obtain ⟨f₀, hf₀, _⟩ := hs.listed
    have htemp : tempIno ≠ k := fun e => by
      rw [← e, hnext.unused] at hf₀
      cases hf₀
    have hreplace : Py.Keeps (SafeStays k bs n) (replaceInode cfg env fh tempIno) := by
      intro s hs
      rcases replaceInode_cases cfg env fh tempIno s with
        heq | ⟨f, r, g', hf, _, ⟨_, heq⟩ | ⟨fNew, _, _, heq⟩⟩ <;> rw [heq]
      · exact hs
      · exact hs
      · exact (hs.reset hf fun e => absurd e hne).delItem htemp
    have hrest : Py.Keeps (SafeStays k bs n) (Py.attempt
        (do
          let f ← inodeAt fh
          copyBlocks cfg P (env.clock 0) fh tempIno newSize f.data 0
          replaceInode cfg env fh tempIno)
        (fun _ => return ())) :=
      Py.keeps_attempt (Py.keeps_bind (inodeAt_keeps fh) fun f =>
        Py.keeps_bind (copyBlocks_safe htemp _ _ _) fun _ => hreplace) fun _ => Py.keeps_pure _
    rw [Py.run_bind_ok hcopy]
    exact hrest _ (hs.setItem (hnext.fits hroom) fun e => absurd e htemp)

/-- The size part of a `setattr` call for another file. -/
theorem updateSize_safe (env : CallEnv H) {f : FileInode H} {size : Option Nat} {s : Fs H}
    (hs : Safe k bs n s.inodes)
    (hother : ∀ m, size = some m → f.inode ≠ k ∧ (m < f.size → numbersFit s = true)) :
    ∃ s', updateSize cfg P env f size s = (.ok (), s') ∧ Safe k bs n s'.inodes := by
  cases size with
  | none => exact ⟨s, rfl, hs⟩
  | some m =>
    obtain ⟨hne, hroom⟩ := hother m rfl
    refine ⟨_, Py.attempt_pass _ s, ?_⟩
    unfold resize
    split
    · have hgrow : Py.Keeps (SafeStays k bs n) (do
          let _written ← write cfg P f.inode f.size (List.replicate (m - f.size) 0) (env.clock 0)
          return ()) := Py.keeps_bind (write_safe hne _ _ _) fun _ => Py.keeps_pure _
      exact hgrow s hs
    · split
      · rename_i hlt
        exact truncateDown_safe hne env m hs (hroom hlt)
      · exact hs

omit [DecidableEq H] in
theorem setAttributes_safe (inode : Nat) (a : SetattrFields) (now : Time) :
    Py.Keeps (SafeStays k bs n) (setAttributes (H := H) inode a now) := by
  intro s hs
  unfold setAttributes
  cases hf : s.inodes.d.get? inode with
  | none =>
    rw [Py.run_bind_error (inodeAt_missing hf)]
    exact hs
  | some f =>
    rw [Py.run_bind_ok (inodeAt_run hf)]
    refine hs.reset hf fun e => ?_
    obtain ⟨f₀, hf₀, hsaved⟩ := hs.listed
    rw [e, hf₀] at hf
    cases hf
    exact ⟨hsaved.data, hsaved.size, hsaved.offsets⟩

/-- A `setattr` call that does not resize the file. -/
theorem setattr_safe {inode : Nat} {a : SetattrFields} (env : CallEnv H) {s : Fs H}
    (hs : Safe k bs n s.inodes)
    (hother : ∀ f m, s.inodes.d.get? inode = some f → a.stSize = some m →
      f.inode ≠ k ∧ (m < f.size → numbersFit s = true)) :
    Safe k bs n (setattr cfg P env inode a s).2.inodes := by
  have hset : Py.Keeps (SafeStays k bs n) (do
      setAttributes (H := H) inode a (env.clock 0)
      getattr inode) := by
    refine Py.keeps_bind (setAttributes_safe inode a _) fun _ s hs => ?_
    rw [getattr_state]
    exact hs
  unfold setattr
  cases hf : s.inodes.d.get? inode with
  | none =>
    rw [Py.run_bind_error (inodeAt_missing hf)]
    exact hs
  | some f =>
    obtain ⟨s₁, hrun, hs₁⟩ : ∃ s', updateSize cfg P env f a.stSize s = (.ok (), s') ∧
        Safe k bs n s'.inodes := updateSize_safe env hs fun m hm => hother f m hf hm
    rw [Py.run_bind_ok (inodeAt_run hf), Py.run_bind_ok hrun]
    exact hset s₁ hs₁

omit [DecidableEq H] in
/-- **A request** that does not remove the file. -/
theorem Safe.request {v : Vfs H} {now : Time} {q : Request} {r : Except PyError Reply} {s : Fs H}
    (hs : Safe k bs n v.fs.inodes) (hself : SelfNumbered v.fs.inodes) (hrun : Handled v now q r s)
    (hroom : q.adds = true → numbersFit v.fs = true)
    (hstays : ∀ f, v.fs.inodes.d.get? k = some f → ¬ Removal v q k f) : Safe k bs n s.inodes := by
  refine hs.of_flushed (hrun.filed hself hs.filed hroom) hrun.flushed ?_
  obtain ⟨f, hf, hsaved⟩ := hs.listed
  rcases hrun.kept.old k f hf with ⟨f', hf', hkept⟩ | ⟨_, hgone⟩
  · refine ⟨f', hf', ?_⟩
    rw [hkept.eq]
    exact ⟨hsaved.data, hsaved.size, hsaved.offsets⟩
  · exact absurd hgone (hstays f hf)

/-! ## Events -/

/-- The file is not the subject: it is not written, cut or removed.  A request finds every inode
under its own number, which only a truncation that stopped half-way takes away. -/
def Event.Spares (k : Nat) (v : Running H) : Event H → Prop
  | .request q _ => SelfNumbered v.fs.inodes ∧ (q.adds = true → numbersFit v.fs = true) ∧
      ∀ f, v.fs.inodes.d.get? k = some f → ¬ Removal v.toVfs q k f
  | .setattr inode a _ => ∀ f m, v.fs.inodes.d.get? inode = some f → a.stSize = some m →
      f.inode ≠ k ∧ (m < f.size → numbersFit v.fs = true)
  | .write fh _ _ _ => fh ≠ k
  | _ => True

variable {v v' : Running H} {e : Event H}

theorem Safe.handle (hs : Safe k bs n v.fs.inodes) (hok : e.Spares k v) :
    Safe k bs n (e.handle cfg P v).2.fs.inodes := by
  cases e with
  | request q clock =>
    obtain ⟨hself, hroom, hstays⟩ := hok
    exact hs.request hself (handle_run cfg clock q (v := v.toVfs) hself) hroom hstays
  | getattr inode =>
    change Safe k bs n (getattr inode v.fs).2.inodes
    rw [getattr_state]
    exact hs
  | setattr inode a env => exact setattr_safe env hs hok
  | read fh offset length now => exact read_safe fh offset length now v.fs hs
  | write fh offset buf now => exact write_safe hok offset buf now v.fs hs
  | flush => exact hs.commit
  | writer i env =>
    change Safe k bs n (v.runWriter cfg i env).fs.inodes
    unfold Running.runWriter
    cases v.writers[i]? <;> exact hs
  | collect now => exact hs
  | mount uid gid now => exact hs.opened uid gid now

/-- **No event moves a block** that is on its store. -/
theorem OnStore.handle {h : H} {b : Block H} {r : Option Bytes}
    (hs : OnStore h b r v.writers v.fs.globals) (hok : e.Spares k v) :
    OnStore h b r (e.handle cfg P v).2.writers (e.handle cfg P v).2.fs.globals := by
  have hcalls := onStore_calls cfg P h b r v.writers
  cases e with
  | request q clock =>
    have hdrop : ∀ now x, Py.Keeps (Py.Stays (OnStore h b r v.writers)) (updateIndexRemove cfg now x) :=
      fun now x _ hs => hs.drop cfg now x
    exact handle_keeps (v := v.toVfs) hdrop clock q hok.1 hs
  | getattr inode =>
    change OnStore h b r v.writers (getattr inode v.fs).2.globals
    rw [getattr_state]
    exact hs
  | setattr inode a env =>
    obtain ⟨es, hrun⟩ : ∃ es, ((fileSystem cfg P).meeting fun _ e => e.isCall = true).Run v.fs es
        (setattr cfg P env inode a v.fs).2 :=
      setattr_run (fun _ e he => by cases e <;> first | rfl | cases he) env inode a v.fs
        (fun _ _ _ _ _ => rfl) fun _ _ _ _ _ => rfl
    refine hrun.invariant (I := fun s => OnStore h b r v.writers s.globals) (fun t e t' ht hstep => ?_) hs
    obtain ⟨rfl, hcall⟩ := hstep
    exact hcalls.call ht hcall
  | read fh offset length now => exact hs.caches (read_keeps cfg P fh offset length now v.fs).caches
  | write fh offset buf now => exact hcalls.write_kept fh offset buf now hs
  | flush => exact hs.commit
  | writer i env =>
    change OnStore h b r (v.runWriter cfg i env).writers (v.runWriter cfg i env).fs.globals
    unfold Running.runWriter
    cases hi : v.writers[i]? with
    | none => exact hs
    | some w => exact hs.writer cfg env hi
  | collect now => exact hs.collect cfg now
  | mount uid gid now =>
    refine hs.mounted fun w hw => ?_
    obtain ⟨_, _, rfl⟩ := List.mem_map.mp hw
    rfl

/-! ## Files on the disk -/

/-- The inode and the blocks of the file. -/
structure OnDisk (P : Packages H) (content : H → Bytes) (k : Nat) (bs : List (FileBlock H)) (n : Nat)
    (v : Running H) : Prop where
  safe : Safe k bs n v.fs.inodes
  blocks : ∀ b ∈ bs, ∃ e r, OnStore b.hash e r v.writers v.fs.globals ∧ Unpacks P content b e r

theorem OnDisk.handle (hs : OnDisk P content k bs n v) (hok : e.Spares k v) :
    OnDisk P content k bs n (e.handle cfg P v).2 := by
  refine ⟨hs.safe.handle hok, fun b hb => ?_⟩
  obtain ⟨x, r, hstore, hunpacks⟩ := hs.blocks b hb
  exact ⟨x, r, hstore.handle hok, hunpacks⟩

/-- **A flush** of a file whose blocks were written. -/
theorem Whole.flushed (hb : cfg.backend = .rocksdb) (h : Whole cfg P content C v.writers v.fs)
    {f : FileInode H} (hf : v.fs.inodes.d.get? k = some f) (hoffsets : f.OffsetsExact)
    (hwritten : ∀ b ∈ f.data, ∀ q ∈ waiting v.writers v.fs.globals, q.hash ≠ b.hash) :
    OnDisk P content k f.data f.size (Event.handle cfg P .flush v).2 := by
  have hfile := h.file k f hf
  have hcommitted := h.filed.commit
  have hlisted : v.fs.inodes.commit.d.get? k = some f := by
    rw [FSMeta.commit_d]
    exact hf
  have hsaved : f.Saved f.data f.size := ⟨rfl, rfl, hoffsets⟩
  refine ⟨⟨hcommitted, ⟨f, hlisted, hsaved⟩, ?_⟩, fun b hb' =>
    (hfile.served b hb').onStore hb h.stocked.regular (hwritten b hb')⟩
  have hrecord := hcommitted.recorded.records k (by rw [FSMeta.commit_pending]; rfl)
  rw [hlisted] at hrecord
  obtain ⟨f', hf', heq⟩ := Option.map_eq_some_iff.mp hrecord
  exact ⟨f', hf', hsaved.of_reloaded heq⟩

/-- **A mount serves** a file that is on the disk. -/
theorem OnDisk.reads (hb : cfg.backend = .rocksdb) (hs : OnDisk P content k bs n v)
    (hsum : (rawSizes bs).sum = n) (uid gid : Nat) (now : Time) {offset : Nat} (hle : offset ≤ n)
    (length : Nat) (now' : Time) :
    (Event.handle cfg P (.read k offset length now')
      (Event.handle cfg P (.mount uid gid now) v).2).1 =
      .ok (.bytes (((contents content bs).take (offset + length)).drop offset)) := by
  obtain ⟨f, hf, hsaved⟩ := (hs.safe.opened uid gid now).listed
  have hserved : AllServed cfg P content f.data v.fs.globals.mounted := fun b hb' => by
    obtain ⟨x, r, hstore, hunpacks⟩ := hs.blocks b (hsaved.data ▸ hb')
    exact hstore.served hb hunpacks
  obtain ⟨s', hrun, _⟩ := read_run (s := ⟨v.fs.inodes.opened uid gid now, v.fs.globals.mounted⟩) hf
    hserved (by rw [hsaved.data, hsaved.size]; exact hsum) hsaved.offsets (hsaved.size ▸ hle) length now'
  change (read cfg P k offset length now'
    ⟨v.fs.inodes.opened uid gid now, v.fs.globals.mounted⟩).1.map Answer.bytes = _
  rw [hrun, hsaved.data]
  rfl

end VeratyFS
