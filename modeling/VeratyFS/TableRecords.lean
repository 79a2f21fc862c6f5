import VeratyFS.InUse
import VeratyFS.Remount
import VeratyFS.Accounting
import VeratyFS.Crashes

/-!
# The inode table over whole runs

* `Filed` — the numbers fit their keys, and an inode that is not pending has its record;
  `Filed.step` — every step keeps it, as long as there is room for another number.
* `Blank` — a new inode; `FSMeta.opened_filed`, `FSMeta.opened_d_get?` — a mount.
* `SameAttributes`, `copyBlocks_attributes`, `truncateDown_attributes` — reads, writes and
  truncations change no other field of an inode, whatever they raise.
* `Handled.added`, `Handled.filed` — what a request adds to the table.
* `Flushed`, `Handled.flushed` — a request commits the table, or the inodes it leaves keep their
  records.
-/

set_option autoImplicit false

namespace VeratyFS

open Pylib

variable {H : Type}

/-! ## Records -/

structure Filed (t : FSMeta H) : Prop where
  fits : Fits t
  recorded : Recorded t

namespace Filed

variable {t : FSMeta H} (h : Filed t)
include h

theorem setItem {k : Nat} (hk : (toBytes 64 k).isSome) (v : FileInode H) : Filed (t.setItem k v) :=
  ⟨t.d.forall_set h.fits hk, h.recorded.setItem k v⟩

theorem delItem (k : Nat) : Filed (t.delItem k).2 :=
  ⟨t.forall_delItem h.fits k, h.recorded.delItem k⟩

theorem commit : Filed t.commit :=
  ⟨fun k f hk => h.fits k f (by rw [← FSMeta.commit_d]; exact hk), h.recorded.commit h.fits⟩

/-- An inode that is taken out and set again, as `calc_offsets` does. -/
theorem replace {k : Nat} {f : FileInode H} (hk : t.d.get? k = some f) (v : FileInode H) :
    Filed (((t.update k v).delItem k).2.setItem k v) := by
  have hfit := h.fits k f hk
  have hsame : (t.update k v).delItem k = t.delItem k := by
    obtain ⟨n, hn⟩ := Option.isSome_iff_exists.mp hfit
    have hcontains : (t.d.modify k fun _ => v).contains k = true :=
      (Dict.contains_iff _).mpr ⟨v, by rw [Dict.get?_modify, if_pos rfl, hk]; rfl⟩
    unfold FSMeta.delItem FSMeta.removeFromDisk FSMeta.update
    rw [hn]
    dsimp only
    rw [if_pos hcontains, if_pos ((Dict.contains_iff _).mpr ⟨f, hk⟩), Dict.erase_modify,
      Dict.erase_modify]
  rw [hsame]
  exact (h.delItem k).setItem hfit v

end Filed

/-- What a computation keeps of the table. -/
def FiledStays (s s' : Fs H) : Prop := Py.Stays Filed s.inodes s'.inodes

instance : Py.Frame (@FiledStays H) := ⟨fun _ h => h, fun h h' hs => h' (h hs)⟩

theorem setInode_filed {fh : Nat} (hfit : (toBytes 64 fh).isSome) (f : FileInode H) :
    Py.Keeps FiledStays (setInode fh f) := fun _ hs => hs.setItem hfit f

theorem commitInodes_filed : Py.Keeps (@FiledStays H) commitInodes := fun _ hs => hs.commit

theorem calcOffsets_filed (fh : Nat) : Py.Keeps (@FiledStays H) (calcOffsets fh) := by
  intro s hs
  cases h : s.inodes.d.get? fh with
  | none =>
    unfold calcOffsets
    rw [Py.run_bind_error (inodeAt_missing h)]
    exact hs
  | some f =>
    rw [calcOffsets_eq h]
    exact hs.replace h f.withOffsets

variable [DecidableEq H] {cfg : Config} {P : Packages H}

theorem retrieveData_filed (fh offset length : Nat) (whole : Bool) :
    Py.Keeps FiledStays (retrieveData cfg P fh offset length whole) := by
  refine Py.keeps_bind Py.keeps_read fun s => ?_
  split
  · exact Py.keeps_pure _
  · split
    · exact Py.keeps_pure _
    · refine Py.keeps_bind ?_ fun f => ?_
      · unfold ensureOffsets
        split
        · exact Py.keeps_bind (calcOffsets_filed fh) fun _ =>
            Py.keeps_bind commitInodes_filed fun _ => inodeAt_keeps fh
        · exact Py.keeps_pure _
      · have hblocks : ∀ i j : Int,
            Py.Keeps FiledStays (Fs.onGlobals (getFileData cfg P f.data i j)) := fun _ _ _ hs => hs
        exact retrieveBlocks_keeps hblocks offset length whole

theorem read_filed (fh offset length : Nat) (now : Time) :
    Py.Keeps FiledStays (read cfg P fh offset length now) := by
  refine Py.keeps_bind (retrieveData_filed fh offset length false) fun r s hs => ?_
  cases h : s.inodes.d.get? fh with
  | none =>
    rw [Py.run_bind_error (inodeAt_missing h)]
    exact hs
  | some f =>
    rw [Py.run_bind_ok (inodeAt_run h)]
    exact hs.setItem (hs.fits fh f h) _

theorem writeMiddle_filed (fh offset : Nat) (buf : Bytes) :
    Py.Keeps FiledStays (writeMiddle cfg P fh offset buf) := by
  refine Py.keeps_bind (retrieveData_filed fh offset buf.length true) fun o => ?_
  cases o with
  | data d => exact Py.keeps_raise _
  | whole sd sb eb data =>
    refine Py.keeps_bind (fun _ hs => hs) fun blks => ?_
    exact Py.keeps_bind (inodeAt_keeps fh) fun f => Py.keeps_pure _

theorem write_filed (fh offset : Nat) (buf : Bytes) (now : Time) :
    Py.Keeps FiledStays (write cfg P fh offset buf now) := by
  intro s hs
  cases h : s.inodes.d.get? fh with
  | none =>
    rw [write_missing h]
    exact hs
  | some f =>
    have hfit := hs.fits fh f h
    have hfinish : ∀ f : FileInode H, Py.Keeps FiledStays (finishWrite fh offset buf.length now f) :=
      fun f => Py.keeps_bind (setInode_filed hfit _) fun _ => Py.keeps_pure _
    have hkeeps : Py.Keeps FiledStays (write cfg P fh offset buf now) := by
      refine Py.keeps_bind (inodeAt_keeps fh) fun f => ?_
      split
      · refine Py.keeps_bind (Py.keeps_attempt ?_ fun e => ?_) fun written => ?_
        · exact Py.keeps_bind (writeMiddle_filed fh offset buf) fun f => Py.keeps_pure _
        · split
          · exact Py.keeps_pure _
          · exact Py.keeps_raise _
        · cases written with
          | none => exact Py.keeps_pure _
          | some f => exact hfinish f
      · exact Py.keeps_bind (fun _ hs => hs) fun blks => hfinish _
    exact hkeeps s hs

/-- **Every step keeps the records.** -/
theorem Filed.step {s : Fs H} (hs : Filed s.inodes) {e : FsStep H} (hwf : e.wellFormed s = true) :
    Filed (e.exec cfg P s).inodes := by
  cases e with
  | create a now =>
    change Filed (create a now s).2.inodes
    rcases create_cases a now s with heq | ⟨ino, f, hnext, _, _, _, heq⟩ <;> rw [heq]
    · exact hs
    · exact (hs.setItem (hnext.fits hwf) f).commit
  | read fh offset length now => exact read_filed fh offset length now s hs
  | write fh offset buf now => exact write_filed fh offset buf now s hs
  | copyInode fh =>
    change Filed (copyInode fh s).2.inodes
    cases hf : s.inodes.d.get? fh with
    | none =>
      rw [copyInode_missing hf]
      exact hs
    | some f =>
      obtain ⟨tempIno, hnext, hrun⟩ := copyInode_run hf
      rw [hrun]
      exact hs.setItem (hnext.fits hwf) _
  | replaceInode fh tempIno env =>
    change Filed (replaceInode cfg env fh tempIno s).2.inodes
    rcases replaceInode_cases cfg env fh tempIno s with
      heq | ⟨f, r, g', hf, _, ⟨_, heq⟩ | ⟨fNew, _, _, heq⟩⟩ <;> rw [heq]
    · exact hs
    · exact hs
    · exact (hs.setItem (hs.fits fh f hf) fNew).delItem tempIno
  | setAttributes inode a now =>
    change Filed (setAttributes inode a now s).2.inodes
    unfold VeratyFS.setAttributes
    cases hf : s.inodes.d.get? inode with
    | none =>
      rw [Py.run_bind_error (inodeAt_missing hf)]
      exact hs
    | some f =>
      rw [Py.run_bind_ok (inodeAt_run hf)]
      exact hs.setItem (hs.fits inode f hf) _
  | remove inodeP name stIno clock =>
    change Filed (removeInode cfg clock inodeP name stIno s).2.inodes
    rcases removeInode_cases cfg clock inodeP name stIno s with
      heq | ⟨f, r, g', _, _, _, ⟨_, heq⟩ | ⟨_, heq⟩⟩ <;> rw [heq]
    · exact hs
    · exact hs
    · exact hs.delItem stIno
  | flush => exact hs.commit
  | writerStep env => exact hs
  | collect clock => exact hs

/-! ## Mounts -/

/-- A new inode: no contents, under its own number. -/
structure Blank (k : Nat) (f : FileInode H) : Prop where
  inode : f.inode = k
  data : f.data = []
  offsets : f.offsets = []
  size : f.size = 0

section

variable {t : FSMeta H}

omit [DecidableEq H] in
/-- The table that a mount loads. -/
theorem Filed.loaded (h : Keyed t.ht) : Filed t.initFromDisk where
  fits k f hk := by
    rw [initFromDisk_d_get? h] at hk
    obtain ⟨f₀, hf₀, _⟩ := Option.map_eq_some_iff.mp hk
    obtain ⟨n, hn, _⟩ := Option.bind_eq_some_iff.mp hf₀
    rw [hn]
    rfl
  recorded := by
    refine ⟨h, fun k f hk => (by cases hk), fun k _ => ?_⟩
    rw [initFromDisk_d_get? h, Option.map_map]
    rfl

omit [DecidableEq H] in
/-- **A mount of a committed table** shows the inodes of the table; an empty one gets a root. -/
theorem FSMeta.opened_d_get? (h : Filed t) (hp : ∀ k, t.pending.get? k = none) (uid gid : Nat)
    (now : Time) :
    (∀ k, (t.opened uid gid now).d.get? k = (t.d.get? k).map FileInode.reloaded) ∨
      (∀ k, t.d.get? k = none) ∧ ∃ root, Blank ROOT_INODE root ∧
        ∀ k, (t.opened uid gid now).d.get? k = if ROOT_INODE = k then some root else none := by
  have hload : ∀ k, t.initFromDisk.d.get? k = (t.d.get? k).map FileInode.reloaded := fun k => by
    rw [initFromDisk_d_get? h.recorded.keyed, h.recorded.records k (hp k)]
  unfold FSMeta.opened
  split
  · rename_i hsize
    have hempty := (Dict.size_eq_zero _).mp hsize
    have hroot : ∀ k, (initFileSystem uid gid now t.initFromDisk).d.get? k =
        if ROOT_INODE = k then some _ else none := fun k => by
      rw [initFileSystem, FSMeta.setItem_d_get?, hempty]
    refine .inr ⟨fun k => ?_, _, ?_, hroot⟩
    · have hnone := hempty k
      rw [hload] at hnone
      exact Option.map_eq_none_iff.mp hnone
    · exact ⟨rfl, rfl, rfl, rfl⟩
  · exact .inl hload

end

/-! ## Attributes -/

/-- Only the block list, the offset cache, the size and two times differ. -/
def FileInode.SameAttributes {H : Type} (f f' : FileInode H) : Prop :=
  f' = { f with
    data := f'.data
    offsets := f'.offsets
    size := f'.size
    atimeNs := f'.atimeNs
    mtimeNs := f'.mtimeNs }

omit [DecidableEq H] in
theorem FileInode.SameAttributes.trans {f f' f'' : FileInode H} (h : f.SameAttributes f')
    (h' : f'.SameAttributes f'') : f.SameAttributes f'' := by
  unfold FileInode.SameAttributes at *
  rw [h', h]

omit [DecidableEq H] in
theorem OffsetsOnly.sameAttributes {f f' : FileInode H} (h : OffsetsOnly f f') :
    f.SameAttributes f' := by
  unfold FileInode.SameAttributes
  rw [h.eq]

/-- Every inode stays, with its attributes. -/
def AttributesKept (s s' : Fs H) : Prop :=
  ∀ k f, s.inodes.d.get? k = some f → ∃ f', s'.inodes.d.get? k = some f' ∧ f.SameAttributes f'

omit [DecidableEq H] in
instance : Py.Frame (@AttributesKept H) where
  refl _ _ f hf := ⟨f, hf, rfl⟩
  trans h h' k f hf := by
    obtain ⟨f', hf', hs⟩ := h k f hf
    obtain ⟨f'', hf'', hs'⟩ := h' k f' hf'
    exact ⟨f'', hf'', hs.trans hs'⟩

omit [DecidableEq H] in
/-- One inode is set to a value with its attributes. -/
theorem AttributesKept.setItem {s : Fs H} {fh : Nat} {f v : FileInode H}
    (hf : s.inodes.d.get? fh = some f) (hv : f.SameAttributes v) (g : Globals H) :
    AttributesKept s ⟨s.inodes.setItem fh v, g⟩ := by
  intro k x hx
  change ∃ f', (s.inodes.setItem fh v).d.get? k = some f' ∧ _
  rw [FSMeta.setItem_d_get?]
  split
  · rename_i e
    rw [← e, hf] at hx
    cases hx
    exact ⟨v, rfl, hv⟩
  · exact ⟨x, hx, rfl⟩

omit [DecidableEq H] in
theorem Reread.attributes {fh : Nat} {s s' : Fs H} (h : Reread fh s s') : AttributesKept s s' := by
  intro k f hf
  by_cases e : k = fh
  · subst e
    obtain ⟨f', hf', ho⟩ := h.of_some hf
    exact ⟨f', hf', ho.sameAttributes⟩
  · exact ⟨f, (h.others k e).trans hf, rfl⟩

theorem read_attributes (fh offset length : Nat) (now : Time) :
    Py.Keeps AttributesKept (read cfg P fh offset length now) := fun s =>
  (read_keeps cfg P fh offset length now s).attributes

theorem write_attributes (fh offset : Nat) (buf : Bytes) (now : Time) :
    Py.Keeps AttributesKept (write cfg P fh offset buf now) := by
  intro s
  cases hf : s.inodes.d.get? fh with
  | none =>
    rw [write_missing hf]
    exact Py.Frame.refl s
  | some f =>
    by_cases hm : inMiddle f offset buf.length
    · rcases write_middle cfg P now hf hm with
        ⟨_, hk⟩ | ⟨sd, sb, eb, data, s₁, f₁, blks, g', _, hk, hf₁, _, _, hw⟩
      · exact hk.attributes
      · rw [hw]
        exact Py.Frame.trans hk.attributes (.setItem hf₁ (by rfl) g')
    · obtain ⟨blks, g', _, hw⟩ := write_append cfg P now hf hm
      rw [hw]
      exact .setItem hf (by rfl) g'

/-- The copy loop of a truncation. -/
theorem copyBlocks_attributes (now : Time) (fh tempIno newSize : Nat) :
    ∀ (rest : List (FileBlock H)) (offset : Nat),
      Py.Keeps AttributesKept (copyBlocks cfg P now fh tempIno newSize rest offset)
  | [], _ => Py.keeps_pure _
  | i :: rest, offset => by
    rw [copyBlocks]
    split
    · refine Py.keeps_bind (read_attributes _ _ _ _) fun dat =>
        Py.keeps_bind (write_attributes _ _ _ _) fun written => ?_
      split
      · exact Py.keeps_pure _
      · exact copyBlocks_attributes now fh tempIno newSize rest _
    · exact Py.keeps_bind (read_attributes _ _ _ _) fun dat =>
        Py.keeps_bind (write_attributes _ _ _ _) fun written => Py.keeps_pure _

/-- **A truncation** leaves every file the attributes it had, also when it stops half-way. -/
theorem truncateDown_attributes (env : CallEnv H) (fh newSize : Nat) :
    Py.Keeps AttributesKept (truncateDown cfg P env fh newSize) := by
  intro s
  cases hf : s.inodes.d.get? fh with
  | none =>
    unfold truncateDown
    rw [Py.run_bind_error (copyInode_missing hf)]
    exact Py.Frame.refl s
  | some f =>
    obtain ⟨tempIno, hnext, hcopy⟩ := copyInode_run hf
    have hfresh := hnext.unused
    let s₀ : Fs H := { s with inodes := s.inodes.setItem tempIno (emptied f) }
    have hold : ∀ k g, s.inodes.d.get? k = some g → tempIno ≠ k ∧ s₀.inodes.d.get? k = some g := by
      intro k g hg
      have hne : tempIno ≠ k := fun e => by
        rw [e, hg] at hfresh
        cases hfresh
      exact ⟨hne, (Dict.get?_set_ne _ _ hne).trans hg⟩
    have htemp : s₀.inodes.d.get? tempIno = some (emptied f) := Dict.get?_set_self _ _ _
    have hloop : AttributesKept s₀ (copyBlocks cfg P (env.clock 0) fh tempIno newSize f.data 0 s₀).2 :=
      copyBlocks_attributes (env.clock 0) fh tempIno newSize f.data 0 s₀
    intro k g hg
    obtain ⟨hne, hg₀⟩ := hold k g hg
    unfold truncateDown
    rw [Py.run_bind_ok hcopy, Py.attempt_pass]
    show ∃ f', ((inodeAt fh >>= _ : Op H Unit) s₀).2.inodes.d.get? k = some f' ∧ _
    rw [Py.run_bind_ok (inodeAt_run (hold fh f hf).2)]
    cases hr : copyBlocks cfg P (env.clock 0) fh tempIno newSize f.data 0 s₀ with
    | mk r s₁ =>
      rw [hr] at hloop
      obtain ⟨g₁, hg₁, hsame₁⟩ := hloop k g hg₀
      obtain ⟨t, ht, hsame⟩ := hloop tempIno _ htemp
      cases r with
      | error e =>
        rw [Py.run_bind_error hr]
        exact ⟨g₁, hg₁, hsame₁⟩
      | ok _ =>
        rw [Py.run_bind_ok hr]
        rcases replaceInode_cases cfg env fh tempIno s₁ with
          heq | ⟨f', r, g', hf', _, ⟨_, heq⟩ | ⟨fNew, _, hNew, heq⟩⟩ <;> rw [heq]
        · exact ⟨g₁, hg₁, hsame₁⟩
        · exact ⟨g₁, hg₁, hsame₁⟩
        · rw [ht] at hNew
          cases hNew
          have hdel : ((s₁.inodes.setItem fh t).delItem tempIno).2.d.get? k =
              (s₁.inodes.setItem fh t).d.get? k := by
            rcases (s₁.inodes.setItem fh t).delItem_d_get? tempIno k with e | ⟨e, _⟩
            · exact e
            · exact absurd e hne
          change ∃ f', ((s₁.inodes.setItem fh t).delItem tempIno).2.d.get? k = some f' ∧ _
          rw [hdel, FSMeta.setItem_d_get?]
          by_cases e : fh = k
          · -- the copy takes the place of the file
            subst e
            rw [hf] at hg
            cases hg
            refine ⟨t, if_pos rfl, ?_⟩
            unfold FileInode.SameAttributes at *
            rw [hsame]
            rfl
          · exact ⟨g₁, (if_neg e).trans hg₁, hsame₁⟩

/-! ## Requests -/

/-- The request makes an inode when it succeeds. -/
def Request.adds : Request → Bool
  | .create _ => true
  | .mkdir _ => true
  | .mknod _ _ => true
  | .symlink _ _ _ _ _ => true
  | .link _ _ _ => true
  | _ => false

/-- The table has no number that it had not before. -/
def NoneAdded (t t' : FSMeta H) : Prop := ∀ k, t.d.get? k = none → t'.d.get? k = none

namespace NoneAdded

variable {t t' : FSMeta H} {k : Nat} {f : FileInode H}

omit [DecidableEq H] in
theorem refl (t : FSMeta H) : NoneAdded t t := fun _ h => h

omit [DecidableEq H] in
theorem change (h : NoneAdded t t') (hk : t'.d.get? k = some f) {t'' : FSMeta H} {v : FileInode H}
    (hd : ∀ x, t''.d.get? x = if k = x then some v else t'.d.get? x) : NoneAdded t t'' := by
  intro x hx
  rw [hd]
  split
  · rename_i e
    rw [← e] at hx
    rw [h k hx] at hk
    cases hk
  · exact h x hx

omit [DecidableEq H] in
theorem lookedUp (h : NoneAdded t t') (hk : t'.d.get? k = some f) :
    NoneAdded t (t'.update k f.lookedUp) := h.change hk (FSMeta.update_d_get?_of hk _)

omit [DecidableEq H] in
theorem set (h : NoneAdded t t') (hk : t'.d.get? k = some f) (v : FileInode H) :
    NoneAdded t (t'.setItem k v) := h.change hk (t'.setItem_d_get? k · v)

omit [DecidableEq H] in
theorem delete (h : NoneAdded t t') (k : Nat) : NoneAdded t (t'.delItem k).2 := by
  intro x hx
  rcases t'.delItem_d_get? k x with e | ⟨_, e⟩
  · exact e.trans (h x hx)
  · exact e

omit [DecidableEq H] in
theorem commit (h : NoneAdded t t') : NoneAdded t t'.commit := fun x hx => by
  rw [FSMeta.commit_d]
  exact h x hx

end NoneAdded

/-- The requests that answer with the entry of the inode they made. -/
def Request.creates : Request → Bool
  | .link _ _ _ => false
  | q => q.adds

/-- What a request adds: nothing, or one blank inode under the next number. -/
inductive Added (s s' : Fs H) (q : Request) (r : Except PyError Reply) : Prop
  | nothing (kept : NoneAdded s.inodes s'.inodes) (answer : q.creates = true → ∃ e, r = .error e)
  | one {ino : Nat} {f : FileInode H} (adds : q.adds = true) (number : NextNumber s ino)
      (blank : Blank ino f) (listed : s'.inodes.d.get? ino = some f)
      (others : ∀ k, k ≠ ino → s.inodes.d.get? k = none → s'.inodes.d.get? k = none)
      (answer : q.creates = true → ∃ a, r = .ok (.entry a) ∧ a.stIno = ino)

variable {v : Vfs H} {now : Time}

omit [DecidableEq H] in
theorem Blank.new (a : CreateArgs) (ino : Nat) (now : Time) :
    Blank ino (a.newInode ino now : FileInode H) := ⟨rfl, rfl, rfl, rfl⟩

omit [DecidableEq H] in
theorem Blank.lookedUp {k : Nat} {f : FileInode H} (h : Blank k f) : Blank k f.lookedUp :=
  ⟨h.inode, h.data, h.offsets, h.size⟩

omit [DecidableEq H] in
theorem CreateRun.added {a : CreateArgs} {r : Except PyError EntryAttributes} {s s' : Fs H}
    (h : CreateRun s a now r s') {q : Request} (hq : q.adds = true) :
    Added s s' q (r.map .entry) := by
  cases h with
  | orphan parent => exact .nothing (.refl _) fun _ => ⟨_, rfl⟩
  | unlinkedParent parent links => exact .nothing (.refl _) fun _ => ⟨_, rfl⟩
  | @done p ino parent links number =>
    refine .one hq number (.new a ino now) ?_ (fun k hk hnone => ?_) fun _ => ⟨_, rfl, rfl⟩
    · rw [Fs.withInodes_inodes, FSMeta.commit_d, FSMeta.setItem_d_get?, if_pos rfl]
    · rw [Fs.withInodes_inodes, FSMeta.commit_d, FSMeta.setItem_d_get?, if_neg (Ne.symm hk)]
      exact hnone

omit [DecidableEq H] in
theorem LinkRun.added {inode p : Nat} {n : Bytes} {r : Except PyError EntryAttributes} {s s' : Fs H}
    (h : LinkRun s inode p n now r s') : Added s s' (.link inode p n) (r.map .entry) := by
  have hnot : ∀ {P : Prop}, (Request.link inode p n).creates = true → P := fun h => by cases h
  cases h with
  | orphan parent => exact .nothing (.refl _) hnot
  | unlinkedParent parent links => exact .nothing (.refl _) hnot
  | @dangling _ ni parent links number target =>
    refine .one rfl number (f := linkInode inode p n ni now) ⟨rfl, rfl, rfl, rfl⟩ ?_
      (fun k hk hnone => ?_) hnot
    · rw [Fs.withInodes_inodes, FSMeta.setItem_d_get?, if_pos rfl]
    · rw [Fs.withInodes_inodes, FSMeta.setItem_d_get?, if_neg (Ne.symm hk)]
      exact hnone
  | @done _ f ni parent links number target =>
    rw [FSMeta.setItem_d_get?] at target
    by_cases e : inode = ni
    · -- the number that the inode is linked to is the one that the link takes
      rw [if_pos e.symm] at target
      cases target
      have hblank : Blank ni
          { (linkInode inode p n ni now : FileInode H) with
            stNlink := (linkInode inode p n ni now : FileInode H).stNlink + 1 } := ⟨rfl, rfl, rfl, rfl⟩
      refine .one rfl number hblank ?_ (fun k hk hnone => ?_) hnot
      · rw [Fs.withInodes_inodes, FSMeta.commit_d, FSMeta.setItem_d_get?, if_pos e]
      · rw [Fs.withInodes_inodes, FSMeta.commit_d, FSMeta.setItem_d_get?,
          if_neg fun h => hk (h.symm.trans e), FSMeta.setItem_d_get?, if_neg (Ne.symm hk)]
        exact hnone
    · rw [if_neg (Ne.symm e)] at target
      refine .one rfl number (f := linkInode inode p n ni now) ⟨rfl, rfl, rfl, rfl⟩ ?_
        (fun k hk hnone => ?_) hnot
      · rw [Fs.withInodes_inodes, FSMeta.commit_d, FSMeta.setItem_d_get?, if_neg e,
          FSMeta.setItem_d_get?, if_pos rfl]
      · have hne : inode ≠ k := fun h => by
          rw [h, hnone] at target
          cases target
        rw [Fs.withInodes_inodes, FSMeta.commit_d, FSMeta.setItem_d_get?, if_neg hne,
          FSMeta.setItem_d_get?, if_neg (Ne.symm hk)]
        exact hnone

omit [DecidableEq H] in
/-- **What a request adds** to the table. -/
theorem Handled.added {q : Request} {r : Except PyError Reply} {s : Fs H} (h : Handled v now q r s) :
    Added v.fs s q r := by
  have hnot : ∀ {q : Request} {P : Prop}, q.creates = false → q.creates = true → P :=
    fun h h' => by rw [h] at h'; cases h'
  have hlookup : ∀ {p : Nat} {n : Bytes} {k : Nat} {f : FileInode H},
      findEntry v.fs.inodes p n = some (k, f) →
      NoneAdded v.fs.inodes (v.fs.inodes.update k f.lookedUp) ∧
        (v.fs.inodes.update k f.lookedUp).d.get? k = some f.lookedUp := by
    intro p n k f found
    have hk := (findEntry_some found).1
    exact ⟨(NoneAdded.refl _).lookedUp hk, (FSMeta.update_d_get?_of hk _ k).trans (if_pos rfl)⟩
  cases h with
  | lookup run =>
    cases run with
    | missing found => exact .nothing (.refl _) (hnot rfl)
    | done found => exact .nothing (hlookup found).1 (hnot rfl)
  | create run => exact run.added rfl
  | mkdir run => exact run.added rfl
  | mknod run => exact run.added rfl
  | @symlink p n target uid gid _ _ run =>
    cases run with
    | failed created => exact .nothing (.refl _) fun _ => ⟨_, rfl⟩
    | @done _ ino parent links number =>
      have hblank := Blank.new (H := H) (symlinkArgs p n target uid gid) ino now
      have hcounted := hblank.lookedUp
      refine .one rfl number hcounted ?_ (fun k hk hnone => ?_) fun _ => ⟨_, rfl, rfl⟩
      · rw [Fs.withInodes_inodes, FSMeta.commit_d, FSMeta.setItem_d_get?, if_pos rfl]
      · rw [Fs.withInodes_inodes, FSMeta.commit_d, FSMeta.setItem_d_get?, if_neg (Ne.symm hk),
          FSMeta.commit_d, FSMeta.setItem_d_get?, if_neg (Ne.symm hk)]
        exact hnone
  | link run => exact run.added
  | unlink run =>
    cases run with
    | missing found => exact .nothing (.refl _) (hnot rfl)
    | directory found dir => exact .nothing (hlookup found).1 (hnot rfl)
    | done found file =>
      obtain ⟨hnone, hget⟩ := hlookup found
      exact .nothing (hnone.set hget _).commit (hnot rfl)
  | rmdir run =>
    cases run with
    | missing found => exact .nothing (.refl _) (hnot rfl)
    | file found file => exact .nothing (hlookup found).1 (hnot rfl)
    | notEmpty found dir children => exact .nothing (hlookup found).1 (hnot rfl)
    | done found dir empty => exact .nothing ((hlookup found).1.delete _).commit (hnot rfl)
  | rename run =>
    cases run with
    | flags h => exact .nothing (.refl _) (hnot rfl)
    | missing h found => exact .nothing (.refl _) (hnot rfl)
    | moved h found free =>
      obtain ⟨hnone, hget⟩ := hlookup found
      exact .nothing (hnone.set hget _).commit (hnot rfl)
    | replaced h found target moved count deref =>
      have hmoved := ((hlookup found).1.lookedUp (findEntry_some target).1).set moved
      exact .nothing ((hmoved _).set deref _).commit (hnot rfl)
    | deleted h found target moved count =>
      have hmoved := ((hlookup found).1.lookedUp (findEntry_some target).1).set moved
      exact .nothing ((hmoved _).delete _).commit (hnot rfl)
  | readdir run => exact .nothing (.refl _) (hnot rfl)
  | forget rounds => exact .nothing (NoneAdded.commit fun k hk => (rounds.inode k).1 hk) (hnot rfl)
  | openFile => exact .nothing (.refl _) (hnot rfl)
  | release run =>
    cases run with
    | kept same =>
      rcases same with rfl | rfl
      · exact .nothing (.refl _) (hnot rfl)
      · exact .nothing (NoneAdded.refl _).commit (hnot rfl)
    | removed last found links gone =>
      rcases gone with rfl | rfl
      · exact .nothing ((NoneAdded.refl _).delete _) (hnot rfl)
      · exact .nothing ((NoneAdded.refl _).delete _).commit (hnot rfl)

omit [DecidableEq H] in
/-- A number of the table after a request is one of before, or that of a blank inode. -/
theorem Added.listed_cases {s s' : Fs H} {q : Request} {r : Except PyError Reply}
    (h : Added s s' q r) {k : Nat} {f' : FileInode H}
    (hf' : s'.inodes.d.get? k = some f') (hnone : s.inodes.d.get? k = none) :
    q.adds = true ∧ NextNumber s k ∧ Blank k f' := by
  cases h with
  | nothing kept answer =>
    rw [kept k hnone] at hf'
    cases hf'
  | @one ino f adds number blank listed others answer =>
    by_cases e : k = ino
    · subst e
      rw [listed] at hf'
      cases hf'
      exact ⟨adds, number, blank⟩
    · rw [others k e hnone] at hf'
      cases hf'

omit [DecidableEq H] in
/-- **A request keeps the records**, as long as there is room for another number. -/
theorem Handled.filed {q : Request} {r : Except PyError Reply} {s : Fs H} (h : Handled v now q r s)
    (hself : SelfNumbered v.fs.inodes) (hv : Filed v.fs.inodes)
    (hroom : q.adds = true → numbersFit v.fs = true) : Filed s.inodes := by
  have hfits : Fits s.inodes := fun k f' hf' => by
    cases hf : v.fs.inodes.d.get? k with
    | some f => exact hv.fits k f hf
    | none =>
      obtain ⟨hadds, hnumber, _⟩ := h.added.listed_cases hf' hf
      exact hnumber.fits (hroom hadds)
  exact ⟨hfits, Recorded.moves (fun _ => hv.recorded) (h.moves hself) hfits⟩

/-! ## Commits -/

/-- The table is committed, or the inodes in it have the records that they had. -/
def Flushed (t t' : FSMeta H) : Prop :=
  (∀ k, t'.pending.get? k = none) ∨
    ∀ k f, t'.d.get? k = some f → decoded t'.ht k = decoded t.ht k

namespace Flushed

variable {t t' : FSMeta H}

omit [DecidableEq H] in
theorem of_ht (h : t'.ht = t.ht) : Flushed t t' := .inr fun _ _ _ => by rw [h]

omit [DecidableEq H] in
theorem commit (t t' : FSMeta H) : Flushed t t'.commit := by
  refine .inl fun k => ?_
  rw [FSMeta.commit_pending]
  rfl

omit [DecidableEq H] in
/-- A deleted inode takes its own record with it. -/
theorem delItem (t : FSMeta H) (x : Nat) : Flushed t (t.delItem x).2 := by
  refine .inr fun k f hk => ?_
  unfold FSMeta.delItem FSMeta.removeFromDisk at *
  cases hn : toBytes 64 x with
  | none => rfl
  | some n =>
    rw [hn] at hk
    have hne : x ≠ k := by
      rintro rfl
      dsimp only at hk
      split at hk
      · rw [Dict.get?_erase, if_pos rfl] at hk
        cases hk
      · rename_i hc
        rw [(Dict.contains_eq_false _).mp (Bool.eq_false_iff.mpr hc)] at hk
        cases hk
    dsimp only
    split <;> exact (decoded_erase hn k).trans (if_neg hne)

end Flushed

omit [DecidableEq H] in
/-- **A request** that touches the records commits, or deletes an inode with its record. -/
theorem Handled.flushed {q : Request} {r : Except PyError Reply} {s : Fs H}
    (h : Handled v now q r s) : Flushed v.fs.inodes s.inodes := by
  have hcreate : ∀ {a : CreateArgs} {r : Except PyError EntryAttributes} {s : Fs H},
      CreateRun v.fs a now r s → Flushed v.fs.inodes s.inodes := by
    intro a r s run
    cases run with
    | orphan parent => exact .of_ht rfl
    | unlinkedParent parent links => exact .of_ht rfl
    | done parent links number => exact .commit _ _
  cases h with
  | lookup run =>
    cases run with
    | missing found => exact .of_ht rfl
    | done found => exact .of_ht rfl
  | create run => exact hcreate run
  | mkdir run => exact hcreate run
  | mknod run => exact hcreate run
  | symlink run =>
    cases run with
    | failed created => exact .of_ht rfl
    | done parent links number => exact .commit _ _
  | link run =>
    cases run with
    | orphan parent => exact .of_ht rfl
    | unlinkedParent parent links => exact .of_ht rfl
    | dangling parent links number target => exact .of_ht rfl
    | done parent links number target => exact .commit _ _
  | unlink run =>
    cases run with
    | missing found => exact .of_ht rfl
    | directory found dir => exact .of_ht rfl
    | done found file => exact .commit _ _
  | rmdir run =>
    cases run with
    | missing found => exact .of_ht rfl
    | file found file => exact .of_ht rfl
    | notEmpty found dir children => exact .of_ht rfl
    | done found dir empty => exact .commit _ _
  | rename run =>
    cases run with
    | flags h => exact .of_ht rfl
    | missing h found => exact .of_ht rfl
    | moved h found free => exact .commit _ _
    | replaced h found target moved count deref => exact .commit _ _
    | deleted h found target moved count => exact .commit _ _
  | readdir run => exact .of_ht rfl
  | forget rounds => exact .commit _ _
  | openFile => exact .of_ht rfl
  | release run =>
    cases run with
    | kept same =>
      rcases same with rfl | rfl
      · exact .of_ht rfl
      · exact .commit _ _
    | removed last found links gone =>
      rcases gone with rfl | rfl
      · exact .delItem _ _
      · exact .commit _ _

end VeratyFS
