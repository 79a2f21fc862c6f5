import VeratyFS.Remount
import VeratyFS.Availability

/-!
# Inodes in use

Is an inode taken out of the table only when nothing uses it?

* `FileInode.Kept`, `Retained` — what a request leaves of an inode: the contents stay, and `getattr`,
  `read` and `write` answer as before.
* `Removal` — the four ways out of the table, with what each of them tests.
* `Request.sparesUsed` — the request removes nothing that is open or that the kernel refers to.
* `retained_until_unused` — runs of such requests.
* `forget_removes_open` — the kernel forgets a part of its references, and an open file is gone.
-/

set_option autoImplicit false
set_option maxRecDepth 1024

namespace VeratyFS

open Pylib

variable {H : Type}

/-! ## What stays -/

/-- Only the names and the counts differ, and what is visible was visible and lost no link. -/
structure FileInode.Kept (f f' : FileInode H) : Prop where
  eq : f' = { f with
    name := f'.name
    parentInode := f'.parentInode
    lookupCount := f'.lookupCount
    stNlink := f'.stNlink
    listOnDirLookup := f'.listOnDirLookup }
  visible : f'.listOnDirLookup = true → f.listOnDirLookup = true ∧ f.stNlink ≤ f'.stNlink

namespace FileInode.Kept

variable {f f' f'' : FileInode H}

theorem refl (f : FileInode H) : f.Kept f := ⟨rfl, fun h => ⟨h, Int.le_refl _⟩⟩

theorem trans (h : f.Kept f') (h' : f'.Kept f'') : f.Kept f'' := by
  refine ⟨?_, fun hv => ?_⟩
  · rw [h'.eq, h.eq]
  · obtain ⟨hv', hle'⟩ := h'.visible hv
    obtain ⟨hv, hle⟩ := h.visible hv'
    exact ⟨hv, Int.le_trans hle hle'⟩

theorem count (f : FileInode H) (c : Int) : f.Kept { f with lookupCount := c } :=
  ⟨rfl, fun h => ⟨h, Int.le_refl _⟩⟩

theorem movedTo (f : FileInode H) (p : Nat) (n : Bytes) : f.Kept (f.movedTo p n) :=
  ⟨rfl, fun h => ⟨h, Int.le_refl _⟩⟩

theorem hidden (f : FileInode H) : f.Kept f.hidden := ⟨rfl, fun h => by cases h⟩

theorem unlinked (f : FileInode H) : f.Kept f.unlinked := ⟨rfl, fun h => by cases h⟩

theorem linked (f : FileInode H) : f.Kept { f with stNlink := f.stNlink + 1 } :=
  ⟨rfl, fun h => ⟨h, by show f.stNlink ≤ f.stNlink + 1; omega⟩⟩

end FileInode.Kept

/-- A visible inode has a link. -/
def Linked (t : FSMeta H) : Prop :=
  ∀ k f, t.d.get? k = some f → f.listOnDirLookup = true → 0 < f.stNlink

/-- The inodes stay, and new ones have a link. -/
structure TableKept (t t' : FSMeta H) : Prop where
  kept : ∀ k f, t.d.get? k = some f → ∃ f', t'.d.get? k = some f' ∧ f.Kept f'
  new : ∀ k f', t'.d.get? k = some f' → t.d.get? k = none → f'.listOnDirLookup = true →
    0 < f'.stNlink

namespace TableKept

variable {t t' t'' : FSMeta H} {k : Nat} {f v : FileInode H}

theorem refl (t : FSMeta H) : TableKept t t :=
  ⟨fun _ f hf => ⟨f, hf, .refl f⟩, fun k f hf hn => by rw [hn] at hf; cases hf⟩

theorem trans (h : TableKept t t') (h' : TableKept t' t'') : TableKept t t'' := by
  refine ⟨fun k f hf => ?_, fun k f'' hf'' hn hv => ?_⟩
  · obtain ⟨f', hf', hk⟩ := h.kept k f hf
    obtain ⟨f'', hf'', hk'⟩ := h'.kept k f' hf'
    exact ⟨f'', hf'', hk.trans hk'⟩
  · cases hm : t'.d.get? k with
    | none => exact h'.new k f'' hf'' hm hv
    | some f' =>
      obtain ⟨g, hg, hk⟩ := h'.kept k f' hm
      rw [hf''] at hg
      cases hg
      obtain ⟨hv', hle⟩ := hk.visible hv
      exact Int.lt_of_lt_of_le (h.new k f' hm hn hv') hle

theorem change (hk : t.d.get? k = some f) (hv : f.Kept v)
    (hd : ∀ x, t'.d.get? x = if k = x then some v else t.d.get? x) : TableKept t t' := by
  refine ⟨fun x g hg => ?_, fun x g hg hn => ?_⟩
  · rw [hd]
    split
    · rename_i e
      subst e
      rw [hk] at hg
      cases hg
      exact ⟨v, rfl, hv⟩
    · exact ⟨g, hg, .refl g⟩
  · rw [hd] at hg
    split at hg
    · rename_i e
      subst e
      rw [hk] at hn
      cases hn
    · rw [hn] at hg
      cases hg

theorem lookedUp (h : TableKept t t') (hk : t'.d.get? k = some f) :
    TableKept t (t'.update k f.lookedUp) :=
  h.trans (change hk (.count f _) (FSMeta.update_d_get?_of hk _))

theorem set (h : TableKept t t') (hk : t'.d.get? k = some f) (hv : f.Kept v) :
    TableKept t (t'.setItem k v) := h.trans (change hk hv (t'.setItem_d_get? k · v))

theorem add (h : TableKept t t') (hk : t'.d.get? k = none) (hv : 0 < v.stNlink) :
    TableKept t (t'.setItem k v) := by
  refine h.trans ⟨fun x g hg => ⟨g, ?_, .refl g⟩, fun x g hg hn _ => ?_⟩
  · rw [FSMeta.setItem_d_get?]
    split
    · rename_i e
      rw [← e, hk] at hg
      cases hg
    · exact hg
  · rw [FSMeta.setItem_d_get?] at hg
    split at hg
    · cases hg
      exact hv
    · rw [hn] at hg
      cases hg

theorem commit (h : TableKept t t') : TableKept t t'.commit :=
  h.trans ⟨fun x g hg => ⟨g, by rw [FSMeta.commit_d]; exact hg, .refl g⟩, fun x g hg hn => by
    rw [FSMeta.commit_d, hn] at hg
    cases hg⟩

theorem linked (h : TableKept t t') (ht : Linked t) : Linked t' := by
  intro k f' hf' hv
  cases hk : t.d.get? k with
  | none => exact h.new k f' hf' hk hv
  | some f =>
    obtain ⟨g, hg, hkept⟩ := h.kept k f hk
    rw [hf'] at hg
    cases hg
    obtain ⟨hv', hle⟩ := hkept.visible hv
    exact Int.lt_of_lt_of_le (ht k f hk hv') hle

end TableKept

theorem Linked.delItem {t : FSMeta H} (h : Linked t) (k : Nat) : Linked (t.delItem k).2 := by
  intro x f hf
  rcases t.delItem_d_get? k x with e | ⟨_, e⟩
  · exact h x f (e ▸ hf)
  · rw [e] at hf
    cases hf

/-! ## Ways out of the table -/

/-- What a handler that takes an inode out has tested. -/
inductive Removal (v : Vfs H) : Request → Nat → FileInode H → Prop
  | forget {l : List (Nat × Nat)} {k n : Nat} {f : FileInode H} (mem : (k, n) ∈ l)
      (notRoot : f.inode ≠ ROOT_INODE) (links : f.stNlink ≤ 0) : Removal v (.forget l) k f
  | release {k : Nat} {f : FileInode H} (last : v.openCount k = 1) (links : f.stNlink = 0) :
      Removal v (.release k) k f
  | rmdir {p k : Nat} {n : Bytes} {f : FileInode H}
      (found : findEntry v.fs.inodes p n = some (k, f)) (dir : S_ISDIR f.mode = true)
      (empty : dirEntries v.fs.inodes k = []) : Removal v (.rmdir p n) k f
  | rename {pOld pNew x k : Nat} {nOld nNew : Bytes} {f g f' : FileInode H}
      (found : findEntry v.fs.inodes pOld nOld = some (x, g))
      (target : findEntry (v.fs.inodes.update x g.lookedUp) pNew nNew = some (k, f'))
      (count : ¬ 0 < f'.lookedUp.lookupCount) : Removal v (.rename pOld nOld pNew nNew 0) k f

/-- Every inode stays, unless `gone` holds of it. -/
structure KeptUnless (gone : Nat → FileInode H → Prop) (t t' : FSMeta H) : Prop where
  old : ∀ k f, t.d.get? k = some f →
    (∃ f', t'.d.get? k = some f' ∧ f.Kept f') ∨ (t'.d.get? k = none ∧ gone k f)
  linked : Linked t → Linked t'

section

variable {t t' : FSMeta H} {gone : Nat → FileInode H → Prop}

theorem TableKept.unless (h : TableKept t t') : KeptUnless gone t t' :=
  ⟨fun k f hf => .inl (h.kept k f hf), h.linked⟩

theorem TableKept.delete (h : TableKept t t') {x : Nat} (hx : ∀ f, t.d.get? x = some f → gone x f) :
    KeptUnless gone t (t'.delItem x).2 := by
  refine ⟨fun k f hf => ?_, fun ht => (h.linked ht).delItem x⟩
  rcases t'.delItem_d_get? x k with e | ⟨rfl, e⟩
  · rw [e]
    exact .inl (h.kept k f hf)
  · exact .inr ⟨e, hx f hf⟩

theorem KeptUnless.commit (h : KeptUnless gone t t') : KeptUnless gone t t'.commit := by
  refine ⟨fun k f hf => ?_, fun ht k f hf => ?_⟩
  · rw [FSMeta.commit_d]
    exact h.old k f hf
  · rw [FSMeta.commit_d] at hf
    exact h.linked ht k f hf

end

variable [DecidableEq H] {cfg : Config} {v : Vfs H} {now : Time}

omit [DecidableEq H] in
theorem CreateRun.kept {a : CreateArgs} {r : Except PyError EntryAttributes} {s s' : Fs H}
    (h : CreateRun s a now r s') : TableKept s.inodes s'.inodes := by
  cases h with
  | orphan parent => exact .refl _
  | unlinkedParent parent links => exact .refl _
  | done parent links number =>
    apply TableKept.commit
    exact (TableKept.refl _).add number.unused (by show (0 : Int) < 1; omega)

omit [DecidableEq H] in
theorem LinkRun.kept {inode p : Nat} {n : Bytes} {r : Except PyError EntryAttributes} {s s' : Fs H}
    (h : LinkRun s inode p n now r s') : TableKept s.inodes s'.inodes := by
  cases h with
  | orphan parent => exact .refl _
  | unlinkedParent parent links => exact .refl _
  | dangling parent links number target =>
    exact (TableKept.refl _).add number.unused (by show (0 : Int) < 1; omega)
  | @done _ _ ni parent links number target =>
    have hadd := (TableKept.refl s.inodes).add (v := linkInode inode p n ni now) number.unused
      (by show (0 : Int) < 1; omega)
    exact (hadd.set target (.linked _)).commit

omit [DecidableEq H] in
/-- **Every request keeps the inodes, but for its own removals.** -/
theorem Handled.kept {q : Request} {r : Except PyError Reply} {s : Fs H} (h : Handled v now q r s) :
    KeptUnless (Removal v q) v.fs.inodes s.inodes := by
  have hlookup : ∀ {p : Nat} {n : Bytes} {k : Nat} {f : FileInode H},
      findEntry v.fs.inodes p n = some (k, f) →
      TableKept v.fs.inodes (v.fs.inodes.update k f.lookedUp) ∧
        (v.fs.inodes.update k f.lookedUp).d.get? k = some f.lookedUp := by
    intro p n k f found
    have hk := (findEntry_some found).1
    exact ⟨(TableKept.refl _).lookedUp hk, (FSMeta.update_d_get?_of hk _ k).trans (if_pos rfl)⟩
  cases h with
  | lookup run =>
    cases run with
    | missing found => exact (TableKept.refl _).unless
    | done found => exact (hlookup found).1.unless
  | create run => exact run.kept.unless
  | mkdir run => exact run.kept.unless
  | mknod run => exact run.kept.unless
  | @symlink p n target uid gid _ _ run =>
    cases run with
    | failed created => exact (TableKept.refl _).unless
    | @done _ ino parent links number =>
      have hadd := ((TableKept.refl v.fs.inodes).add
        (v := (symlinkArgs p n target uid gid).newInode ino now)
        number.unused (by show (0 : Int) < 1; omega)).commit
      apply TableKept.unless
      apply TableKept.commit
      refine hadd.set ?_ (.count _ _)
      rw [FSMeta.commit_d, FSMeta.setItem_d_get?, if_pos rfl]
  | link run => exact run.kept.unless
  | unlink run =>
    cases run with
    | missing found => exact (TableKept.refl _).unless
    | directory found dir => exact (hlookup found).1.unless
    | done found file =>
      obtain ⟨hkept, hget⟩ := hlookup found
      exact (hkept.set hget (.unlinked _)).commit.unless
  | rmdir run =>
    cases run with
    | missing found => exact (TableKept.refl _).unless
    | file found file => exact (hlookup found).1.unless
    | notEmpty found dir children => exact (hlookup found).1.unless
    | done found dir empty =>
      refine ((hlookup found).1.delete fun g hg => ?_).commit
      rw [(findEntry_some found).1] at hg
      cases hg
      exact .rmdir found dir empty
  | @rename pOld pNew flags nOld nNew _ _ run =>
    cases run with
    | flags h => exact (TableKept.refl _).unless
    | missing h found => exact (TableKept.refl _).unless
    | moved h found free =>
      obtain ⟨hkept, hget⟩ := hlookup found
      exact (hkept.set hget (.movedTo _ _ _)).commit.unless
    | replaced h found target moved count deref =>
      have hmoved := ((hlookup found).1.lookedUp (findEntry_some target).1).set moved
        (.movedTo _ pNew nNew)
      exact (hmoved.set deref (.hidden _)).commit.unless
    | deleted h found target moved count =>
      subst h
      refine ((((hlookup found).1.lookedUp (findEntry_some target).1).set moved
        (.movedTo _ _ _)).delete fun g hg => ?_).commit
      exact .rename found target count
  | readdir run => exact (TableKept.refl _).unless
  | @forget l s₁ rounds =>
    apply KeptUnless.commit
    refine ⟨fun k f hf => ?_, fun ht k f hf hv => ?_⟩
    · rcases (rounds.inode k).2 f hf with ⟨c, hc⟩ | ⟨hgone, ⟨n, hn⟩, hroot, hlinks⟩
      · exact .inl ⟨_, hc, .count f c⟩
      · exact .inr ⟨hgone, .forget hn hroot hlinks⟩
    · cases hk : v.fs.inodes.d.get? k with
      | none =>
        rw [(rounds.inode k).1 hk] at hf
        cases hf
      | some g =>
        rcases (rounds.inode k).2 g hk with ⟨c, hc⟩ | ⟨hgone, _⟩
        · rw [hf] at hc
          cases hc
          exact ht k g hk hv
        · rw [hf] at hgone
          cases hgone
  | openFile => exact (TableKept.refl _).unless
  | @release fh _ _ run =>
    cases run with
    | kept same =>
      rcases same with rfl | rfl
      · exact (TableKept.refl _).unless
      · exact (TableKept.refl _).commit.unless
    | removed last found links gone =>
      have hgone : ∀ g, v.fs.inodes.d.get? fh = some g → Removal v (.release fh) fh g := by
        intro g hg
        rw [found] at hg
        cases hg
        exact .release last links
      rcases gone with rfl | rfl
      · exact (TableKept.refl _).delete hgone
      · exact ((TableKept.refl _).delete hgone).commit

/-! ## Bytes -/

section

variable {R : Globals H → Globals H → Prop} [Py.Frame R]

omit [DecidableEq H] in
theorem onInodes_keeps {α : Type} (m : Py PyError (FSMeta H) α) :
    Py.Keeps (InvImage R (Fs.globals (H := H))) (Fs.onInodes m) :=
  fun s => Py.Frame.refl s.globals

omit [DecidableEq H] in
theorem getattr_keeps (inode : Nat) :
    Py.Keeps (InvImage R (Fs.globals (H := H))) (getattr inode) := fun s => by
  rw [getattr_state]
  exact Py.Frame.refl s.globals

variable (hdrop : ∀ now h, Py.Keeps R (updateIndexRemove cfg now h))
include hdrop

/-- What a drop keeps, `_remove` keeps. -/
theorem removeInode_keeps (clock : Nat → Time) (inodeP : Nat) (name : Bytes) (stIno : Nat) :
    Py.Keeps (InvImage R (Fs.globals (H := H))) (removeInode cfg clock inodeP name stIno) := by
  refine Py.keeps_bind (inodeAt_keeps _) fun p => ?_
  split
  · exact Py.keeps_raise _
  · refine Py.keeps_attempt ?_ fun e => ?_
    · refine Py.keeps_bind (inodeAt_keeps _) fun f => ?_
      exact Py.keeps_bind (Py.keeps_zoom (Py.keeps_forEach fun _ => hdrop _ _) fun _ _ h => h)
        fun _ => onInodes_keeps _
    · split
      · exact Py.keeps_pure _
      · exact Py.keeps_raise _

theorem forget_keeps (clock : Nat → Nat → Time) (l : List (Nat × Nat)) :
    Py.Keeps (InvImage R (Fs.globals (H := H))) (forget cfg clock l) := by
  refine Py.keeps_bind (Py.keeps_forEach fun n => ?_) fun _ => onInodes_keeps _
  refine Py.keeps_attempt ?_ fun _ => Py.keeps_pure _
  refine Py.keeps_bind (inodeAt_keeps _) fun f => ?_
  split
  · refine Py.keeps_bind (onInodes_keeps _) fun _ => ?_
    split
    · exact Py.keeps_bind (getattr_keeps _) fun _ => removeInode_keeps hdrop _ _ _ _
    · exact Py.keeps_pure _
  · exact onInodes_keeps _

theorem removeUnlinked_keeps (clock : Nat → Time) (fh : Nat) :
    Py.Keeps (InvImage R (Fs.globals (H := H))) (Vfs.removeUnlinked cfg clock fh) := by
  refine Py.keeps_bind (inodeAt_keeps _) fun f => ?_
  split
  · exact Py.keeps_bind (getattr_keeps _) fun _ => removeInode_keeps hdrop _ _ _ _
  · exact Py.keeps_pure _

theorem release_keeps (clock : Nat → Time) (fh : Nat) (v : Vfs H) :
    R v.fs.globals (Vfs.release cfg clock fh v).2.fs.globals := by
  have hfs : ∀ m : Op H Unit, Py.Keeps (InvImage R (Fs.globals (H := H))) m →
      Py.Keeps (InvImage R fun v : Vfs H => v.fs.globals) (Vfs.onFs m) :=
    fun m hm => Py.keeps_zoom hm fun _ _ h => h
  have hkeeps : Py.Keeps (InvImage R fun v : Vfs H => v.fs.globals)
      (Vfs.release cfg clock fh) := by
    refine Py.keeps_bind (Py.keeps_modify fun v => Py.Frame.refl v.fs.globals) fun _ => ?_
    refine Py.keeps_bind Py.keeps_read fun v => ?_
    split
    · refine Py.keeps_bind (Py.keeps_modify fun v => Py.Frame.refl v.fs.globals) fun _ => ?_
      refine Py.keeps_bind (hfs _ (removeUnlinked_keeps hdrop clock fh)) fun _ => ?_
      exact hfs _ (onInodes_keeps _)
    · exact hfs _ (onInodes_keeps _)
  exact hkeeps v

end

omit [DecidableEq H] in
/-- Only `forget` and `release` drop blocks. -/
theorem Handled.globals {q : Request} {r : Except PyError Reply} {s : Fs H}
    (h : Handled v now q r s) (hforget : ∀ l, q ≠ .forget l) (hrelease : ∀ fh, q ≠ .release fh) :
    s.globals = v.fs.globals := by
  cases h with
  | lookup run => cases run <;> rfl
  | create run => cases run <;> rfl
  | mkdir run => cases run <;> rfl
  | mknod run => cases run <;> rfl
  | symlink run => cases run <;> rfl
  | link run => cases run <;> rfl
  | unlink run => cases run <;> rfl
  | rmdir run => cases run <;> rfl
  | rename run => cases run <;> rfl
  | readdir run => rfl
  | forget rounds => exact absurd rfl (hforget _)
  | openFile => rfl
  | release run => exact absurd rfl (hrelease _)

/-- **What a drop keeps, a request keeps.** -/
theorem handle_keeps {R : Globals H → Globals H → Prop} [Py.Frame R]
    (hdrop : ∀ now h, Py.Keeps R (updateIndexRemove cfg now h)) (clock : Nat → Nat → Time)
    (q : Request) {v : Vfs H} (hself : SelfNumbered v.fs.inodes) :
    R v.fs.globals (q.handle cfg clock v).2.fs.globals := by
  have hhandled := handle_run cfg clock q hself
  cases hq : q with
  | forget l =>
    rw [Request.handle, answer_run]
    exact forget_keeps hdrop clock l v.fs
  | release fh =>
    rw [Request.handle, bind_reply]
    exact release_keeps hdrop _ fh v
  | _ =>
    rw [hq] at hhandled
    have hsame := hhandled.globals (fun l h => by cases h) fun fh h => by cases h
    rw [hsame]
    exact Py.Frame.refl _

/-- **No request moves a block.** -/
theorem Session.withdrawn_exec (cfg : Config) (s : Session H) (c : Call)
    (hself : SelfNumbered s.inodes) :
    Withdrawn s.vfs.fs.globals (s.exec cfg c).vfs.fs.globals :=
  handle_keeps (updateIndexRemove_keeps cfg) c.clock c.request hself

/-! ## Runs -/

omit [DecidableEq H] in
/-- The inode is not open, and the kernel refers to it no more once it has given `returned` back. -/
def Session.unused (s : Session H) (k : Nat) (returned : Int) : Bool :=
  decide (s.vfs.openCount k = 0) && decide (s.references k = returned)

/-- What the request removes from the table is in use neither by a handle nor by the kernel. -/
def Request.sparesUsed (s : Session H) : Request → Bool
  | .forget l => l.all fun n =>
    match s.inodes.d.get? n.1 with
    | some f =>
      decide (f.inode = ROOT_INODE) || decide (0 < f.stNlink) ||
        s.unused n.1 ((Request.forget l).returns n.1)
    | none => true
  | .release fh =>
    match s.inodes.d.get? fh with
    | some f =>
      decide (s.vfs.openCount fh ≠ 1) || decide (f.stNlink ≠ 0) || decide (s.references fh = 0)
    | none => true
  | .rmdir p n =>
    match findEntry s.inodes p n with
    | some (k, f) => !S_ISDIR f.mode || !(dirEntries s.inodes k).isEmpty || s.unused k 0
    | none => true
  | .rename pOld nOld pNew nNew flags =>
    match findEntry s.inodes pOld nOld with
    | some (x, g) =>
      match findEntry (s.inodes.update x g.lookedUp) pNew nNew with
      | some (k, f) =>
        decide (flags ≠ 0) || decide (0 ≤ f.lookupCount) ||
          decide ((pOld, nOld) ≠ (pNew, nNew)) && s.unused k 0
      | none => true
    | none => true
  | _ => true

/-- What the request removes from the table is not open, and the kernel does not refer to it. -/
def Request.removesIdle (s : Session H) : Request → Bool
  | .rename pOld nOld pNew nNew flags =>
    match findEntry s.inodes pOld nOld with
    | some (x, g) =>
      match findEntry (s.inodes.update x g.lookedUp) pNew nNew with
      | some (k, f) => decide (flags ≠ 0) || decide (0 ≤ f.lookupCount) || s.unused k 0
      | none => true
    | none => true
  | q => q.sparesUsed s

omit [DecidableEq H] in
theorem Request.removesIdle_of_sparesUsed {s : Session H} {q : Request} (h : q.sparesUsed s = true) :
    q.removesIdle s = true := by
  cases q with
  | rename pOld nOld pNew nNew flags =>
    unfold Request.sparesUsed at h
    unfold Request.removesIdle
    dsimp only at h ⊢
    split
    · rename_i x g hfound
      rw [hfound] at h
      dsimp only at h
      split
      · rename_i k f htarget
        rw [htarget] at h
        simp only [Bool.or_eq_true, Bool.and_eq_true] at h ⊢
        exact h.imp_right And.right
      · rfl
    · rfl
  | _ => exact h

/-- The directory entry that a request removes. -/
def Request.unnames : Request → Option (Nat × Bytes)
  | .unlink p n => some (p, n)
  | .rmdir p n => some (p, n)
  | .rename pOld nOld pNew nNew _ =>
    if (pOld, nOld) = (pNew, nNew) then none else some (pNew, nNew)
  | _ => none

/-- The request takes the inode `f` out of the table, and nothing uses it: no other visible name, no
open handle, no reference of the kernel. -/
structure Unused (s : Session H) (q : Request) (s' : Session H) (k : Nat) (f : FileInode H) : Prop where
  gone : s'.inodes.d.get? k = none
  unnamed : f.listOnDirLookup = false ∨ q.unnames = some (f.parentInode, f.name)
  closed : s'.vfs.openCount k = 0
  unreferenced : s'.references k = 0

variable {s : Session H} {c : Call}

omit [DecidableEq H] in
/-- A hidden inode, when it has no link. -/
theorem Linked.hidden {t : FSMeta H} (h : Linked t) {k : Nat} {f : FileInode H}
    (hk : t.d.get? k = some f) (links : f.stNlink ≤ 0) : f.listOnDirLookup = false := by
  cases hv : f.listOnDirLookup with
  | false => rfl
  | true =>
    have hpos := h k f hk hv
    omega

theorem Request.grants_done (q : Request) (r : Except PyError Unit) :
    q.grants (r.map fun _ => .done) = none := by
  cases q <;> cases r <;> rfl

/-- A handler of the file system opens and closes nothing, and without an entry in its reply the
kernel only gives references back. -/
theorem Session.exec_answer {m : Op H Unit}
    (hm : c.request.handle cfg c.clock s.vfs = Vfs.answer (fun _ => .done) m s.vfs) (k : Nat) :
    (s.exec cfg c).vfs.openCount k = s.vfs.openCount k ∧
      (s.exec cfg c).references k = s.references k - c.request.returns k := by
  rw [answer_run] at hm
  unfold Session.exec Session.outcome
  rw [hm]
  refine ⟨rfl, ?_⟩
  dsimp only
  rw [Request.grants_done, if_neg (fun h => by cases h), Int.add_zero]

/-- **An inode that such a request removes** is not open afterwards, and the kernel does not refer to
it. -/
theorem Removal.idle (cfg : Config) {k : Nat} {f : FileInode H} (h : Removal s.vfs c.request k f)
    (hk : s.inodes.d.get? k = some f) (hidle : c.request.removesIdle s = true) :
    (s.exec cfg c).vfs.openCount k = 0 ∧ (s.exec cfg c).references k = 0 := by
  have hanswer := fun (m : Op H Unit) (hm : c.request.handle cfg c.clock s.vfs =
    Vfs.answer (fun _ => .done) m s.vfs) => Session.exec_answer hm k
  generalize hq : c.request = q at h hidle hanswer
  cases h with
  | @forget l _ n _ mem notRoot links =>
    obtain ⟨hopen, hrefs⟩ := hanswer _ rfl
    have hone := List.all_eq_true.mp hidle _ mem
    simp [hk, notRoot, Session.unused] at hone
    obtain ⟨hclosed, hback⟩ := hone.resolve_left (by omega)
    refine ⟨hopen.trans hclosed, ?_⟩
    rw [hrefs, hback]
    omega
  | release last links =>
    have hrefs : s.references k = 0 := by
      simpa [Request.removesIdle, Request.sparesUsed, hk, last, links] using hidle
    constructor
    · have hopen := (release_run cfg (c.clock 0) k s.vfs).2 k
      rw [if_pos rfl, last] at hopen
      show (c.request.handle cfg c.clock s.vfs).2.openCount k = 0
      rw [hq, Request.handle, bind_reply]
      exact hopen
    · show s.references k + (if c.request.grants (c.request.handle cfg c.clock s.vfs).1 = some k
        then 1 else 0) - c.request.returns k = 0
      rw [hq, Request.handle, bind_reply, Request.grants_done, if_neg (fun h => by cases h), hrefs]
      rfl
  | @rmdir p _ n _ found dir empty =>
    obtain ⟨hopen, hrefs⟩ := hanswer _ rfl
    have found' : findEntry s.inodes p n = some (k, f) := found
    have empty' : dirEntries s.inodes k = [] := empty
    have hboth : s.vfs.openCount k = 0 ∧ s.references k = 0 := by
      simpa [Request.removesIdle, Request.sparesUsed, found', dir, empty', Session.unused] using hidle
    refine ⟨hopen.trans hboth.1, ?_⟩
    rw [hrefs, hboth.2]
    rfl
  | @rename pOld pNew x _ nOld nNew _ g f' found target count =>
    obtain ⟨hopen, hrefs⟩ := hanswer _ rfl
    have found' : findEntry s.inodes pOld nOld = some (x, g) := found
    have target' : findEntry (s.inodes.update x g.lookedUp) pNew nNew = some (k, f') := target
    have hneg : ¬ 0 ≤ f'.lookupCount := by
      have hcount : ¬ 0 < f'.lookupCount + 1 := count
      omega
    have hboth : s.vfs.openCount k = 0 ∧ s.references k = 0 := by
      simpa [Request.removesIdle, found', target', hneg, Session.unused] using hidle
    refine ⟨hopen.trans hboth.1, ?_⟩
    rw [hrefs, hboth.2]
    rfl

/-- **An inode that a sparing request removes is unused.** -/
theorem Removal.unused {k : Nat} {f : FileInode H} (h : Removal s.vfs c.request k f)
    (hlinked : Linked s.inodes) (hk : s.inodes.d.get? k = some f)
    (hspares : c.request.sparesUsed s = true) (hgone : (s.exec cfg c).inodes.d.get? k = none) :
    Unused s c.request (s.exec cfg c) k f := by
  obtain ⟨hclosed, hrefs⟩ := h.idle cfg hk (Request.removesIdle_of_sparesUsed hspares)
  refine ⟨hgone, ?_, hclosed, hrefs⟩
  generalize c.request = q at h hspares ⊢
  cases h with
  | forget mem notRoot links => exact .inl (hlinked.hidden hk links)
  | release last links => exact .inl (hlinked.hidden hk (by omega))
  | @rmdir p _ n _ found dir empty =>
    obtain ⟨hparent, hname, _⟩ := FileInode.named_iff.mp (findEntry_some found).2
    refine .inr ?_
    rw [hparent, hname]
    rfl
  | @rename pOld pNew x _ nOld nNew _ g f' found target count =>
    have found' : findEntry s.inodes pOld nOld = some (x, g) := found
    have target' : findEntry (s.inodes.update x g.lookedUp) pNew nNew = some (k, f') := target
    have hneg : ¬ 0 ≤ f'.lookupCount := by
      have hcount : ¬ 0 < f'.lookupCount + 1 := count
      omega
    have hnames : (pOld, nOld) ≠ (pNew, nNew) := by
      have hspares : (decide (0 ≤ f'.lookupCount) ||
          decide ((pOld, nOld) ≠ (pNew, nNew)) && s.unused k 0) = true := by
        simpa [Request.sparesUsed, found', target'] using hspares
      rw [decide_eq_false hneg, Bool.false_or] at hspares
      simp only [Bool.and_eq_true, decide_eq_true_eq] at hspares
      exact hspares.1
    -- a lookup of `x` changes no name, so the target has the new name in the table before
    have hnamed : f.parentInode = pNew ∧ f.name = nNew := by
      obtain ⟨hget, hnamed⟩ := findEntry_some target
      obtain ⟨hparent, hname, _⟩ := FileInode.named_iff.mp hnamed
      rw [FSMeta.update_d_get?_of (findEntry_some found).1] at hget
      split at hget
      · rename_i e
        have hg := (findEntry_some found').1
        rw [e, hk] at hg
        cases hg
        cases hget
        exact ⟨hparent, hname⟩
      · have hk' : s.vfs.fs.inodes.d.get? k = some f := hk
        rw [hk'] at hget
        cases hget
        exact ⟨hparent, hname⟩
    refine .inr ?_
    rw [hnamed.1, hnamed.2]
    exact if_neg hnames

/-- The inode is in the table, and `getattr`, `read` and `write` answer as in the state `s`. -/
structure Retained (cfg : Config) (k : Nat) (f : FileInode H) (s s' : Session H) : Prop where
  inode : ∃ f', s'.inodes.d.get? k = some f' ∧ f.Kept f'
  getattr : ∃ n, (getattr k s'.vfs.fs).1 = .ok { f.attributes k with stNlink := n }
  read : ∀ P content, AllAvailable cfg P content f.data s.vfs.fs.globals → ∀ offset length now,
    (read cfg P k offset length now s'.vfs.fs).1 = (read cfg P k offset length now s.vfs.fs).1
  write : ∀ P content, AllAvailable cfg P content f.data s.vfs.fs.globals → ∀ offset buf now,
    (write cfg P k offset buf now s'.vfs.fs).1 = (write cfg P k offset buf now s.vfs.fs).1

/-- An inode whose contents stay, over bytes that stay. -/
theorem Retained.of_kept {k : Nat} {f f' : FileInode H} {s s' : Session H}
    (hk : s.inodes.d.get? k = some f) (hk' : s'.inodes.d.get? k = some f') (hkept : f.Kept f')
    (hbytes : Withdrawn s.vfs.fs.globals s'.vfs.fs.globals) : Retained cfg k f s s' := by
  have hsame : ∀ {P : Packages H} {content : H → Bytes},
      AllAvailable cfg P content f.data s.vfs.fs.globals →
      SameFile cfg P content k f.data s.vfs.fs s'.vfs.fs := fun havail =>
    ⟨⟨f, f', hk, hk', rfl, by rw [hkept.eq], by rw [hkept.eq], by rw [hkept.eq]⟩, havail,
      fun b hb => (havail b hb).withdrawn hbytes⟩
  refine ⟨⟨f', hk', hkept⟩, ⟨f'.stNlink, ?_⟩, fun P content havail offset length now => ?_,
    fun P content havail offset buf now => ?_⟩
  · rw [getattr_run (s := s'.vfs.fs) hk']
    show Except.ok (f'.attributes k) = _
    rw [hkept.eq]
    rfl
  · exact read_agree (hsame havail) offset length now
  · exact write_agree (hsame havail) offset buf now

/-- The inode is in the table of the state `t`, and its bytes are where they were in the state `s`. -/
def KeptFrom (k : Nat) (f : FileInode H) (s t : Session H) : Prop :=
  ∃ f', t.inodes.d.get? k = some f' ∧ f.Kept f' ∧ Withdrawn s.vfs.fs.globals t.vfs.fs.globals

theorem KeptFrom.retained {k : Nat} {f : FileInode H} {t : Session H}
    (hk : s.inodes.d.get? k = some f) (h : KeptFrom k f s t) : Retained cfg k f s t := by
  obtain ⟨f', hk', hkept, hbytes⟩ := h
  exact .of_kept hk hk' hkept hbytes

/-- One request: the inode stays, or it was unused. -/
theorem KeptFrom.exec {k : Nat} {f : FileInode H} {t : Session H} (h : KeptFrom k f s t) (c : Call)
    (hself : SelfNumbered t.inodes) (hlinked : Linked t.inodes)
    (hspares : c.request.sparesUsed t = true) :
    KeptFrom k f s (t.exec cfg c) ∨
      ∃ f₁, t.inodes.d.get? k = some f₁ ∧ Unused t c.request (t.exec cfg c) k f₁ := by
  obtain ⟨f₁, hk, hkept, hbytes⟩ := h
  rcases (handle_run cfg c.clock c.request hself).kept.old k f₁ hk with ⟨f₂, hk₂, hkept₂⟩ | ⟨hgone, hr⟩
  · exact .inl ⟨f₂, hk₂, hkept.trans hkept₂,
      Py.Frame.trans hbytes (Session.withdrawn_exec cfg t c hself)⟩
  · exact .inr ⟨f₁, hk, hr.unused hlinked hk hspares hgone⟩

theorem Session.linked_exec {t : Session H} (hself : SelfNumbered t.inodes)
    (hlinked : Linked t.inodes) (c : Call) : Linked (t.exec cfg c).inodes :=
  (handle_run cfg c.clock c.request hself).kept.linked hlinked

/-- **Inodes stay until a request removes them when nothing uses them**, in every run of sparing
requests. -/
theorem retained_until_unused {s₀ s s' : Session H} {cs₀ cs : List Call}
    (hself : SelfNumbered s₀.inodes) (hlinked : Linked s₀.inodes)
    (hreach : (sessions cfg).Run s₀ cs₀ s)
    (hrun : ((sessions cfg).meeting fun s c => c.request.sparesUsed s = true).Run s cs s')
    {k : Nat} {f : FileInode H} (hk : s.inodes.d.get? k = some f) :
    (∀ n, Retained cfg k f s (System.after (Session.exec cfg) s (cs.take n))) ∨
    ∃ cs₁ c cs₂ f₁, cs = cs₁ ++ c :: cs₂ ∧
      (∀ n, Retained cfg k f s (System.after (Session.exec cfg) s (cs₁.take n))) ∧
      (System.after (Session.exec cfg) s cs₁).inodes.d.get? k = some f₁ ∧
      Unused (System.after (Session.exec cfg) s cs₁) c.request
        ((System.after (Session.exec cfg) s cs₁).exec cfg c) k f₁ := by
  have hgood : SelfNumbered s.inodes ∧ Linked s.inodes := by
    refine hreach.invariant (I := fun s => SelfNumbered s.inodes ∧ Linked s.inodes) ?_
      ⟨hself, hlinked⟩
    rintro s c _ ⟨hself, hlinked⟩ rfl
    exact ⟨Session.selfNumbered_exec hself c, Session.linked_exec hself hlinked c⟩
  have hmain : ∀ {t t' : Session H} {cs : List Call},
      ((sessions cfg).meeting fun s c => c.request.sparesUsed s = true).Run t cs t' →
      SelfNumbered t.inodes → Linked t.inodes → KeptFrom k f s t →
      (∀ n, KeptFrom k f s (System.after (Session.exec cfg) t (cs.take n))) ∨
      ∃ cs₁ c cs₂ f₁, cs = cs₁ ++ c :: cs₂ ∧
        (∀ n, KeptFrom k f s (System.after (Session.exec cfg) t (cs₁.take n))) ∧
        (System.after (Session.exec cfg) t cs₁).inodes.d.get? k = some f₁ ∧
        Unused (System.after (Session.exec cfg) t cs₁) c.request
          ((System.after (Session.exec cfg) t cs₁).exec cfg c) k f₁ := by
    intro t t' cs hrun
    induction hrun with
    | nil t => exact fun _ _ hkept => .inl fun n => by rw [List.take_nil]; exact hkept
    | @cons t t₁ t₂ c cs hstep _ ih =>
      intro hself hlinked hkept
      obtain ⟨rfl, hspares⟩ := hstep
      have hnext : KeptFrom k f s (t.exec cfg c) ∨ _ := hkept.exec c hself hlinked hspares
      rcases hnext with hkept₁ | ⟨f₁, hk₁, hunused⟩
      · have hfirst : ∀ {l : List Call},
            (∀ n, KeptFrom k f s (System.after (Session.exec cfg) (t.exec cfg c) (l.take n))) →
            ∀ n, KeptFrom k f s (System.after (Session.exec cfg) t ((c :: l).take n)) := by
          intro l hl n
          cases n with
          | zero => exact hkept
          | succ n => exact hl n
        rcases ih (Session.selfNumbered_exec hself c) (Session.linked_exec hself hlinked c) hkept₁
          with hall | ⟨cs₁, c', cs₂, f₁, rfl, hall, hk₁, hunused⟩
        · exact .inl (hfirst hall)
        · exact .inr ⟨c :: cs₁, c', cs₂, f₁, rfl, hfirst hall, hk₁, hunused⟩
      · exact .inr ⟨[], c, cs, f₁, rfl, fun n => by rw [List.take_nil]; exact hkept, hk₁, hunused⟩
  rcases hmain hrun hgood.1 hgood.2 ⟨f, hk, .refl f, Py.Frame.refl _⟩ with
    hall | ⟨cs₁, c, cs₂, f₁, hcs, hall, hk₁, hunused⟩
  · exact .inl fun n => (hall n).retained hk
  · exact .inr ⟨cs₁, c, cs₂, f₁, hcs, fun n => (hall n).retained hk, hk₁, hunused⟩

omit [DecidableEq H] in
theorem Opened.created_linked {t : FSMeta H} (empty : ∀ k, t.d.get? k = none) (uid gid : Nat)
    (now : Time) : Linked (initFileSystem uid gid now t) := by
  intro k f hk _
  unfold initFileSystem at hk
  rw [FSMeta.setItem_d_get?] at hk
  split at hk
  · cases hk
    show (0 : Int) < 1
    omega
  · rw [empty] at hk
    cases hk

/-- A file is created. -/
def createdCalls : List Call := [⟨.create ⟨1, [97], 33188, 0, 0, 0, none⟩, fun _ _ => 0⟩]

/-- It is closed, unlinked and forgotten. -/
def closedCalls : List Call :=
  [⟨.release 2, fun _ _ => 0⟩, ⟨.unlink 1 [97], fun _ _ => 0⟩, ⟨.forget [(2, 1)], fun _ _ => 0⟩]

theorem retained_until_unused_sample :
    let exec := Session.exec .shipped
    let s := System.after exec sampleSession createdCalls
    ∀ f, s.inodes.d.get? 2 = some f →
      (∀ n, Retained .shipped 2 f s (System.after exec s (closedCalls.take n))) ∨
      ∃ cs₁ c cs₂ f₁, closedCalls = cs₁ ++ c :: cs₂ ∧
        (∀ n, Retained .shipped 2 f s (System.after exec s (cs₁.take n))) ∧
        (System.after exec s cs₁).inodes.d.get? 2 = some f₁ ∧
        Unused (System.after exec s cs₁) c.request (exec c (System.after exec s cs₁)) 2 f₁ := by
  intro exec s f hk
  exact retained_until_unused sampleSession_opened.selfNumbered
    (Opened.created_linked (fun _ => rfl) 0 0 0)
    (System.run_after (Session.exec .shipped) createdCalls sampleSession)
    (System.run_meeting_after (Session.exec .shipped) (fun s c => c.request.sparesUsed s)
      closedCalls s (by decide)) hk

/-- A file is created, looked up once more and unlinked while it is open. -/
def openUnlinkedCalls : List Call :=
  [⟨.create ⟨1, [97], 33188, 0, 0, 0, none⟩, fun _ _ => 0⟩, ⟨.lookup 1 [97], fun _ _ => 0⟩,
    ⟨.unlink 1 [97], fun _ _ => 0⟩]

/-- The kernel takes one of its two references back, and the open file is removed. -/
theorem forget_removes_open :
    ¬ ∀ (s s' : Session Bytes) (cs : List Call) (c : Call) (k : Nat) (f : FileInode Bytes),
      Opened s.inodes → (sessions .shipped).Run s cs s' → s'.inodes.d.get? k = some f →
      (s'.exec .shipped c).inodes.d.get? k = none → Unused s' c.request (s'.exec .shipped c) k f := by
  intro h
  have hrun := System.run_after (Session.exec .shipped) openUnlinkedCalls sampleSession
  let s := System.after (Session.exec .shipped) sampleSession openUnlinkedCalls
  let c : Call := ⟨.forget [(2, 1)], fun _ _ => 0⟩
  have hthere : (s.inodes.d.get? 2).isSome = true := by decide +kernel
  obtain ⟨f, hf⟩ := Option.isSome_iff_exists.mp hthere
  have hgone : (s.exec .shipped c).inodes.d.get? 2 = none := by decide +kernel
  have hopen : (s.exec .shipped c).vfs.openCount 2 = 1 := by decide +kernel
  have hclosed := (h _ _ _ c 2 f sampleSession_opened hrun hf hgone).closed
  exact absurd (hopen.symm.trans hclosed) (by decide)

end VeratyFS
