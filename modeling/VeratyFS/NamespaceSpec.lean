import Mathlib.Logic.Relation
import VeratyFS.Namespace

/-!
# What the namespace operations do

One relation for each handler, with a constructor for each way through it, and the lemma that the
handler's outcome is one of them.  Later proofs use these and never unfold the handlers.

* `SelfNumbered` — every inode carries the number it is stored under, which a search relies on.
* `TableMove`, `TableMoves` — what all handlers do to the table.
* `LookupRun`, `UnlinkRun`, `RmdirRun`, `RenameRun`, `CreateRun`, `SymlinkRun`, `ForgetOneRun`,
  `ReleaseRun`.
-/

set_option autoImplicit false

namespace VeratyFS

open Pylib

variable {H : Type}

/-! ## Inodes and tables -/

namespace FileInode

/-- A successful search adds a lookup. -/
def lookedUp (f : FileInode H) : FileInode H := { f with lookupCount := f.lookupCount + 1 }

def movedTo (f : FileInode H) (inodeP : Nat) (name : Bytes) : FileInode H :=
  { f with name := name, parentInode := inodeP }

/-- A name less, and out of sight. -/
def hidden (f : FileInode H) : FileInode H :=
  { f with listOnDirLookup := false, stNlink := f.stNlink - 1 }

/-- `unlink` takes its own lookup back. -/
def unlinked (f : FileInode H) : FileInode H :=
  { f with
    lookupCount := f.lookupCount - 1
    stNlink := f.stNlink - 1
    listOnDirLookup := false }

def forgotten (f : FileInode H) (nlookup : Nat) : FileInode H :=
  { f with lookupCount := f.lookupCount - nlookup }

/-- What `getattr` reports. -/
def attributes (f : FileInode H) (inode : Nat) : EntryAttributes :=
  ⟨inode, f.mode, f.stNlink, f.uid, f.gid, f.rdev, f.size, f.atimeNs, f.mtimeNs, f.ctimeNs⟩

@[simp] theorem lookedUp_attributes (f : FileInode H) (k : Nat) :
    f.lookedUp.attributes k = f.attributes k := rfl

@[simp] theorem lookedUp_named (f : FileInode H) (p : Nat) (n : Bytes) :
    f.lookedUp.named p n = f.named p n := rfl

theorem named_iff {f : FileInode H} {p : Nat} {n : Bytes} :
    f.named p n = true ↔ f.parentInode = p ∧ f.name = n ∧ f.listOnDirLookup = true := by
  simp [named]

end FileInode

/-- The inode that `_create` makes. -/
def CreateArgs.newInode (a : CreateArgs) (ino : Nat) (now : Time) : FileInode H where
  inode := ino
  mode := a.mode
  uid := a.uid
  gid := a.gid
  mtimeNs := timeNs now
  atimeNs := timeNs now
  ctimeNs := timeNs now
  rdev := a.rdev
  name := a.name
  parentInode := a.parent
  target := a.target.getD []

namespace FSMeta

variable (t : FSMeta H)

@[simp] theorem setItem_d_get? (k x : Nat) (v : FileInode H) :
    (t.setItem k v).d.get? x = if k = x then some v else t.d.get? x := t.d.get?_set k x v

@[simp] theorem update_d_get? (k x : Nat) (v : FileInode H) :
    (t.update k v).d.get? x = if k = x then (t.d.get? x).map fun _ => v else t.d.get? x :=
  t.d.get?_modify k x _

/-- The inode of a key that is present, changed in place. -/
theorem update_d_get?_of {t : FSMeta H} {k : Nat} {f : FileInode H} (h : t.d.get? k = some f)
    (v : FileInode H) (x : Nat) :
    (t.update k v).d.get? x = if k = x then some v else t.d.get? x := by
  rw [update_d_get?]
  by_cases e : k = x
  · rw [if_pos e, if_pos e, ← e, h]
    rfl
  · rw [if_neg e, if_neg e]

theorem delItem_d_get?_of_fits {t : FSMeta H} {k : Nat} (hfit : (toBytes 64 k).isSome)
    (hk : t.d.contains k = true) (x : Nat) :
    (t.delItem k).2.d.get? x = if k = x then none else t.d.get? x := by
  rw [t.delItem_d hfit hk]
  exact t.d.get?_erase k x

end FSMeta

/-! ## Searches -/

/-- Every inode carries the number it is stored under. -/
def SelfNumbered (t : FSMeta H) : Prop := ∀ k f, t.d.get? k = some f → f.inode = k

theorem findEntry_some {t : FSMeta H} {p : Nat} {n : Bytes} {k : Nat} {f : FileInode H}
    (h : findEntry t p n = some (k, f)) : t.d.get? k = some f ∧ f.named p n = true :=
  ⟨t.d.mem_entries_iff.mp (List.mem_of_find?_eq_some h), by
    have hp := List.find?_some h
    exact hp⟩

theorem findEntry_none {t : FSMeta H} {p : Nat} {n : Bytes} :
    findEntry t p n = none ↔ ∀ k f, t.d.get? k = some f → f.named p n = false := by
  unfold findEntry
  rw [List.find?_eq_none]
  constructor
  · intro h k f hk
    exact Bool.eq_false_iff.mpr (h (k, f) (t.d.mem_entries_iff.mpr hk))
  · rintro h ⟨k, f⟩ hk
    exact Bool.eq_false_iff.mp (h k f (t.d.mem_entries_iff.mp hk))

theorem dirEntries_eq_nil {t : FSMeta H} {inode : Nat} :
    dirEntries t inode = [] ↔
      ∀ k f, t.d.get? k = some f → ¬ (f.parentInode = inode ∧ f.listOnDirLookup = true) := by
  unfold dirEntries
  rw [List.filter_eq_nil_iff]
  constructor
  · intro h k f hk
    have hf := h f (List.mem_map.mpr ⟨(k, f), t.d.mem_entries_iff.mpr hk, rfl⟩)
    simpa using hf
  · intro h f hf
    obtain ⟨⟨k, f'⟩, hmem, rfl⟩ := List.mem_map.mp hf
    simpa using h k f' (t.d.mem_entries_iff.mp hmem)

theorem getattr_run {k : Nat} {s : Fs H} {f : FileInode H} (h : s.inodes.d.get? k = some f) :
    getattr k s = (.ok (f.attributes k), s) := by
  unfold getattr
  exact Py.run_attempt_ok (Py.run_bind_ok (inodeAt_run h))

theorem getattr_missing {k : Nat} {s : Fs H} (h : s.inodes.d.get? k = none) :
    getattr k s = (.error (.fuseError .ENOENT), s) := by
  unfold getattr
  rw [Py.run_attempt_error (Py.run_bind_error (inodeAt_missing h))]
  rfl

/-- The state with another inode table. -/
def Fs.withInodes (s : Fs H) (t : FSMeta H) : Fs H := { s with inodes := t }

@[simp] theorem Fs.withInodes_inodes (s : Fs H) (t : FSMeta H) : (s.withInodes t).inodes = t := rfl

@[simp] theorem Fs.withInodes_globals (s : Fs H) (t : FSMeta H) :
    (s.withInodes t).globals = s.globals := rfl

variable {s : Fs H} {p : Nat} {n : Bytes} {k : Nat} {f : FileInode H}

theorem lookup_missing (h : findEntry s.inodes p n = none) :
    Fs.lookup p n s = (.error (.fuseError .ENOENT), s) := by
  unfold Fs.lookup
  rw [Py.run_bind_ok (Py.run_read s), h]
  rfl

/-- **A search that succeeds** counts a lookup in place. -/
theorem lookup_found (hs : SelfNumbered s.inodes) (h : findEntry s.inodes p n = some (k, f)) :
    Fs.lookup p n s = (.ok (f.attributes k), s.withInodes (s.inodes.update k f.lookedUp)) := by
  have hk := (findEntry_some h).1
  have hself : f.inode = k := hs k f hk
  unfold Fs.lookup
  rw [Py.run_bind_ok (Py.run_read s), h]
  show getattr f.inode (s.withInodes (s.inodes.update k f.lookedUp)) = _
  have hget : (s.withInodes (s.inodes.update k f.lookedUp)).inodes.d.get? f.inode =
      some f.lookedUp := by
    rw [hself]
    exact (FSMeta.update_d_get?_of hk _ k).trans (if_pos rfl)
  rw [getattr_run hget, hself]
  rfl

inductive LookupRun (s : Fs H) (p : Nat) (n : Bytes) : Except PyError EntryAttributes → Fs H → Prop
  | missing (found : findEntry s.inodes p n = none) :
      LookupRun s p n (.error (.fuseError .ENOENT)) s
  | done {k : Nat} {f : FileInode H} (found : findEntry s.inodes p n = some (k, f)) :
      LookupRun s p n (.ok (f.attributes k)) (s.withInodes (s.inodes.update k f.lookedUp))

theorem lookup_run (hs : SelfNumbered s.inodes) (p : Nat) (n : Bytes) :
    LookupRun s p n (Fs.lookup p n s).1 (Fs.lookup p n s).2 := by
  cases hfind : findEntry s.inodes p n with
  | none =>
    rw [lookup_missing hfind]
    exact .missing hfind
  | some e =>
    rw [lookup_found hs hfind]
    exact .done hfind

/-- `readdir` changes nothing. -/
inductive ReaddirRun (s : Fs H) (inode off : Nat) :
    Except PyError (Option (Bytes × EntryAttributes × Nat)) → Prop
  | past (listed : (dirEntries s.inodes inode)[off]? = none) : ReaddirRun s inode off (.ok none)
  | missing {f : FileInode H} (listed : (dirEntries s.inodes inode)[off]? = some f) {e : PyError} :
      ReaddirRun s inode off (.error e)
  | done {f g : FileInode H} (listed : (dirEntries s.inodes inode)[off]? = some f)
      (found : s.inodes.d.get? f.inode = some g) :
      ReaddirRun s inode off (.ok (some (f.name, g.attributes f.inode, off + 1)))

theorem readdir_run (inode off : Nat) (s : Fs H) :
    ReaddirRun s inode off (readdir inode off s).1 ∧ (readdir inode off s).2 = s := by
  unfold readdir
  rw [Py.run_bind_ok (Py.run_read s)]
  cases hlisted : (dirEntries s.inodes inode)[off]? with
  | none => exact ⟨.past hlisted, rfl⟩
  | some f =>
    show ReaddirRun s inode off ((getattr f.inode >>= _ : Op H _) s).1 ∧
      ((getattr f.inode >>= _ : Op H _) s).2 = s
    cases hg : s.inodes.d.get? f.inode with
    | none =>
      rw [Py.run_bind_error (getattr_missing hg)]
      exact ⟨.missing hlisted, rfl⟩
    | some g =>
      rw [Py.run_bind_ok (getattr_run hg)]
      exact ⟨.done hlisted hg, rfl⟩

/-! ## Moves of the table -/

/-- What the handlers do to the table: a lookup count changes in place, an inode is set under its
number, a number is deleted, the table is committed. -/
inductive TableMove : FSMeta H → FSMeta H → Prop
  | count {t : FSMeta H} {k : Nat} {f : FileInode H} {c : Int} (found : t.d.get? k = some f) :
      TableMove t (t.update k { f with lookupCount := c })
  | set {t : FSMeta H} {k : Nat} {v : FileInode H} (self : v.inode = k) :
      TableMove t (t.setItem k v)
  | delete {t : FSMeta H} {k : Nat} : TableMove t (t.delItem k).2
  | commit {t : FSMeta H} : TableMove t t.commit

/-- Any number of moves. -/
def TableMoves : FSMeta H → FSMeta H → Prop := Relation.ReflTransGen TableMove

namespace TableMoves

variable {t t' : FSMeta H}

theorem refl (t : FSMeta H) : TableMoves t t := Relation.ReflTransGen.refl

theorem lookedUp (h : TableMoves t t') (hk : t'.d.get? k = some f) :
    TableMoves t (t'.update k f.lookedUp) := Relation.ReflTransGen.tail h (.count hk)

theorem set (h : TableMoves t t') {v : FileInode H} (hv : v.inode = k) :
    TableMoves t (t'.setItem k v) := Relation.ReflTransGen.tail h (.set hv)

theorem delete (h : TableMoves t t') (k : Nat) : TableMoves t (t'.delItem k).2 :=
  Relation.ReflTransGen.tail h .delete

theorem commit (h : TableMoves t t') : TableMoves t t'.commit :=
  Relation.ReflTransGen.tail h .commit

theorem trans {t'' : FSMeta H} (h : TableMoves t t') (h' : TableMoves t' t'') : TableMoves t t'' :=
  Relation.ReflTransGen.trans h h'

/-- **Rule for moves.** -/
theorem invariant {I : FSMeta H → Prop} (hstep : ∀ t t', TableMove t t' → I t → I t')
    (h : TableMoves t t') (ht : I t) : I t' := by
  induction h with
  | refl => exact ht
  | tail _ hlast ih => exact hstep _ _ hlast ih

end TableMoves

theorem TableMove.selfNumbered {t t' : FSMeta H} (h : TableMove t t') (ht : SelfNumbered t) :
    SelfNumbered t' := by
  intro x g hg
  cases h with
  | count found =>
    rw [FSMeta.update_d_get?_of found] at hg
    split at hg
    · rename_i e
      cases hg
      exact (ht _ _ found).trans e
    · exact ht x g hg
  | set self => exact t.d.forall_set ht self x g hg
  | @delete k => exact t.forall_delItem ht k x g hg
  | commit =>
    rw [FSMeta.commit_d] at hg
    exact ht x g hg

theorem SelfNumbered.moves {t t' : FSMeta H} (h : SelfNumbered t) (hm : TableMoves t t') :
    SelfNumbered t' := hm.invariant (fun _ _ hstep => hstep.selfNumbered) h

theorem SelfNumbered.lookedUp {t : FSMeta H} (h : SelfNumbered t) (hk : t.d.get? k = some f) :
    SelfNumbered (t.update k f.lookedUp) := h.moves ((TableMoves.refl t).lookedUp hk)

/-! ## Removing names -/

inductive UnlinkRun (s : Fs H) (p : Nat) (n : Bytes) : Except PyError Unit → Fs H → Prop
  | missing (found : findEntry s.inodes p n = none) :
      UnlinkRun s p n (.error (.fuseError .ENOENT)) s
  | directory {k : Nat} {f : FileInode H} (found : findEntry s.inodes p n = some (k, f))
      (dir : S_ISDIR f.mode = true) :
      UnlinkRun s p n (.error (.fuseError .EISDIR))
        (s.withInodes (s.inodes.update k f.lookedUp))
  | done {k : Nat} {f : FileInode H} (found : findEntry s.inodes p n = some (k, f))
      (file : S_ISDIR f.mode = false) :
      UnlinkRun s p n (.ok ()) (s.withInodes
        ((s.inodes.update k f.lookedUp).setItem k f.lookedUp.unlinked).commit)

theorem unlink_run (hs : SelfNumbered s.inodes) (p : Nat) (n : Bytes) :
    UnlinkRun s p n (unlink p n s).1 (unlink p n s).2 := by
  cases hfind : findEntry s.inodes p n with
  | none =>
    unfold unlink
    rw [Py.run_bind_error (lookup_missing hfind)]
    exact .missing hfind
  | some e =>
    obtain ⟨k, f⟩ := e
    have hget := FSMeta.update_d_get?_of (findEntry_some hfind).1 f.lookedUp k
    rw [if_pos rfl] at hget
    unfold unlink
    rw [Py.run_bind_ok (lookup_found hs hfind)]
    split
    · rename_i hdir
      exact .directory hfind hdir
    · rename_i hdir
      rw [Py.run_bind_ok (inodeAt_run hget)]
      exact .done hfind (Bool.eq_false_iff.mpr hdir)

inductive RmdirRun (s : Fs H) (p : Nat) (n : Bytes) : Except PyError Unit → Fs H → Prop
  | missing (found : findEntry s.inodes p n = none) :
      RmdirRun s p n (.error (.fuseError .ENOENT)) s
  | file {k : Nat} {f : FileInode H} (found : findEntry s.inodes p n = some (k, f))
      (file : S_ISDIR f.mode = false) :
      RmdirRun s p n (.error (.fuseError .ENOTDIR))
        (s.withInodes (s.inodes.update k f.lookedUp))
  | notEmpty {k : Nat} {f : FileInode H} (found : findEntry s.inodes p n = some (k, f))
      (dir : S_ISDIR f.mode = true) (children : dirEntries s.inodes k ≠ []) :
      RmdirRun s p n (.error (.fuseError .ENOTEMPTY))
        (s.withInodes (s.inodes.update k f.lookedUp))
  | done {k : Nat} {f : FileInode H} (found : findEntry s.inodes p n = some (k, f))
      (dir : S_ISDIR f.mode = true) (empty : dirEntries s.inodes k = []) :
      RmdirRun s p n (.ok ()) (s.withInodes
        ((s.inodes.update k f.lookedUp).delItem k).2.commit)

/-- A lookup changes no name. -/
theorem dirEntries_lookedUp {t : FSMeta H} {k : Nat} {f : FileInode H} (hk : t.d.get? k = some f)
    (inode : Nat) : dirEntries (t.update k f.lookedUp) inode = [] ↔ dirEntries t inode = [] := by
  rw [dirEntries_eq_nil, dirEntries_eq_nil]
  constructor
  · intro h x g hx
    by_cases e : k = x
    · subst e
      rw [hk] at hx
      cases hx
      exact h k f.lookedUp (by rw [FSMeta.update_d_get?_of hk, if_pos rfl])
    · exact h x g (by rw [FSMeta.update_d_get?_of hk, if_neg e, hx])
  · intro h x g hx
    rw [FSMeta.update_d_get?_of hk] at hx
    split at hx
    · cases hx
      exact h k f hk
    · exact h x g hx

theorem rmdir_run (hs : SelfNumbered s.inodes) (p : Nat) (n : Bytes) :
    RmdirRun s p n (rmdir p n s).1 (rmdir p n s).2 := by
  cases hfind : findEntry s.inodes p n with
  | none =>
    unfold rmdir
    rw [Py.run_bind_error (lookup_missing hfind)]
    exact .missing hfind
  | some e =>
    obtain ⟨k, f⟩ := e
    have hk := (findEntry_some hfind).1
    have hget := FSMeta.update_d_get?_of hk f.lookedUp k
    rw [if_pos rfl] at hget
    unfold rmdir
    rw [Py.run_bind_ok (lookup_found hs hfind)]
    split
    · rename_i hdir
      let t := s.inodes.update k f.lookedUp
      show RmdirRun s p n
        ((if dirEntries t k = [] then (delInode k >>= fun _ => commitInodes)
          else (Py.raise (.fuseError .ENOTEMPTY) : Op H Unit)) (s.withInodes t)).1
        ((if dirEntries t k = [] then (delInode k >>= fun _ => commitInodes)
          else (Py.raise (.fuseError .ENOTEMPTY) : Op H Unit)) (s.withInodes t)).2
      split
      · rename_i hempty
        have hdel : delInode k (s.withInodes t) = (.ok (), s.withInodes (t.delItem k).2) :=
          delInode_run ((Dict.contains_iff _).mpr ⟨_, hget⟩)
        rw [Py.run_bind_ok hdel]
        exact .done hfind hdir ((dirEntries_lookedUp hk k).mp hempty)
      · rename_i hempty
        exact .notEmpty hfind hdir fun h => hempty ((dirEntries_lookedUp hk k).mpr h)
    · rename_i hdir
      exact .file hfind (Bool.eq_false_iff.mpr hdir)

/-! ## Renaming -/

/-- The moved inode is `m` and the one that loses its name is `d`, as the table has them when they
are changed. -/
inductive RenameRun (s : Fs H) (pOld : Nat) (nOld : Bytes) (pNew : Nat) (nNew : Bytes) (flags : Nat) :
    Except PyError Unit → Fs H → Prop
  | flags (h : flags ≠ 0) : RenameRun s pOld nOld pNew nNew flags (.error (.fuseError .EINVAL)) s
  | missing (h : flags = 0) (found : findEntry s.inodes pOld nOld = none) :
      RenameRun s pOld nOld pNew nNew flags (.error (.fuseError .ENOENT)) s
  | moved {k : Nat} {f : FileInode H} (h : flags = 0)
      (found : findEntry s.inodes pOld nOld = some (k, f))
      (free : findEntry (s.inodes.update k f.lookedUp) pNew nNew = none) :
      RenameRun s pOld nOld pNew nNew flags (.ok ()) (s.withInodes
        ((s.inodes.update k f.lookedUp).setItem k (f.lookedUp.movedTo pNew nNew)).commit)
  | replaced {k k' : Nat} {f g m d : FileInode H} (h : flags = 0)
      (found : findEntry s.inodes pOld nOld = some (k, f))
      (target : findEntry (s.inodes.update k f.lookedUp) pNew nNew = some (k', g))
      (moved : ((s.inodes.update k f.lookedUp).update k' g.lookedUp).d.get? k = some m)
      (count : 0 < g.lookedUp.lookupCount)
      (deref : (((s.inodes.update k f.lookedUp).update k' g.lookedUp).setItem k
        (m.movedTo pNew nNew)).d.get? k' = some d) :
      RenameRun s pOld nOld pNew nNew flags (.ok ()) (s.withInodes
        ((((s.inodes.update k f.lookedUp).update k' g.lookedUp).setItem k
          (m.movedTo pNew nNew)).setItem k' d.hidden).commit)
  | deleted {k k' : Nat} {f g m : FileInode H} (h : flags = 0)
      (found : findEntry s.inodes pOld nOld = some (k, f))
      (target : findEntry (s.inodes.update k f.lookedUp) pNew nNew = some (k', g))
      (moved : ((s.inodes.update k f.lookedUp).update k' g.lookedUp).d.get? k = some m)
      (count : ¬ 0 < g.lookedUp.lookupCount) :
      RenameRun s pOld nOld pNew nNew flags (.ok ()) (s.withInodes
        ((((s.inodes.update k f.lookedUp).update k' g.lookedUp).setItem k
          (m.movedTo pNew nNew)).delItem k').2.commit)

theorem replace_hide {k k' : Nat} {m g d : FileInode H} {pNew : Nat} {nNew : Bytes}
    (hm : s.inodes.d.get? k = some m) (hg : s.inodes.d.get? k' = some g)
    (hd : (s.inodes.setItem k (m.movedTo pNew nNew)).d.get? k' = some d) (hc : 0 < g.lookupCount) :
    replace pNew nNew k k' s = (.ok (), s.withInodes
      ((s.inodes.setItem k (m.movedTo pNew nNew)).setItem k' d.hidden)) := by
  unfold replace
  rw [Py.run_bind_ok (inodeAt_run hm), Py.run_bind_ok (inodeAt_run hg)]
  refine Py.run_attempt_ok ?_
  show ((if g.lookupCount > 0 then _ else _) : Op H Unit)
    (s.withInodes (s.inodes.setItem k (m.movedTo pNew nNew))) = _
  refine (congrFun (if_pos hc) _).trans ?_
  exact Py.run_bind_ok (inodeAt_run hd)

theorem replace_delete {k k' : Nat} {m g : FileInode H} {pNew : Nat} {nNew : Bytes}
    (hm : s.inodes.d.get? k = some m) (hg : s.inodes.d.get? k' = some g)
    (hc : ¬ 0 < g.lookupCount) :
    replace pNew nNew k k' s = (.ok (), s.withInodes
      ((s.inodes.setItem k (m.movedTo pNew nNew)).delItem k').2) := by
  unfold replace
  rw [Py.run_bind_ok (inodeAt_run hm), Py.run_bind_ok (inodeAt_run hg)]
  refine Py.run_attempt_ok ?_
  show ((if g.lookupCount > 0 then _ else _) : Op H Unit)
    (s.withInodes (s.inodes.setItem k (m.movedTo pNew nNew))) = _
  refine (congrFun (if_neg hc) _).trans (delInode_run ?_)
  refine (Dict.contains_iff _).mpr ?_
  show ∃ d, (s.inodes.setItem k (m.movedTo pNew nNew)).d.get? k' = some d
  rw [FSMeta.setItem_d_get?]
  split
  · exact ⟨_, rfl⟩
  · exact ⟨g, hg⟩

theorem lookupTarget_missing (h : findEntry s.inodes p n = none) :
    lookupTarget p n s = (.ok none, s) := by
  unfold lookupTarget
  rw [Py.run_attempt_error (Py.run_bind_error (lookup_missing h))]
  rfl

theorem lookupTarget_found (hs : SelfNumbered s.inodes) (h : findEntry s.inodes p n = some (k, f)) :
    lookupTarget p n s =
      (.ok (some (f.attributes k)), s.withInodes (s.inodes.update k f.lookedUp)) := by
  unfold lookupTarget
  exact Py.run_attempt_ok (Py.run_bind_ok (lookup_found hs h))

theorem rename_run (hs : SelfNumbered s.inodes) (pOld : Nat) (nOld : Bytes) (pNew : Nat)
    (nNew : Bytes) (flags : Nat) :
    RenameRun s pOld nOld pNew nNew flags (rename pOld nOld pNew nNew flags s).1
      (rename pOld nOld pNew nNew flags s).2 := by
  unfold rename
  split
  · rename_i h
    exact .flags h
  · rename_i h
    have h := Decidable.not_not.mp h
    cases hfind : findEntry s.inodes pOld nOld with
    | none =>
      rw [Py.run_bind_error (lookup_missing hfind)]
      exact .missing h hfind
    | some e =>
      obtain ⟨k, f⟩ := e
      have hk := (findEntry_some hfind).1
      have hget : (s.inodes.update k f.lookedUp).d.get? k = some f.lookedUp :=
        (FSMeta.update_d_get?_of hk _ k).trans (if_pos rfl)
      rw [Py.run_bind_ok (lookup_found hs hfind)]
      have hs₁ : SelfNumbered (s.inodes.update k f.lookedUp) := hs.lookedUp hk
      cases htarget : findEntry (s.inodes.update k f.lookedUp) pNew nNew with
      | none =>
        rw [Py.run_bind_ok (lookupTarget_missing htarget)]
        show RenameRun s pOld nOld pNew nNew flags ((inodeAt k >>= _ : Op H Unit) _).1
          ((inodeAt k >>= _ : Op H Unit) _).2
        rw [Py.run_bind_ok (inodeAt_run hget)]
        exact .moved h hfind htarget
      | some e =>
        obtain ⟨k', g⟩ := e
        have hk' := (findEntry_some htarget).1
        have hget' : ((s.inodes.update k f.lookedUp).update k' g.lookedUp).d.get? k' =
            some g.lookedUp := (FSMeta.update_d_get?_of hk' _ k').trans (if_pos rfl)
        obtain ⟨m, hm⟩ : ∃ m, ((s.inodes.update k f.lookedUp).update k' g.lookedUp).d.get? k =
            some m := by
          rw [FSMeta.update_d_get?_of hk']
          split
          · exact ⟨_, rfl⟩
          · exact ⟨_, hget⟩
        rw [Py.run_bind_ok (lookupTarget_found hs₁ htarget)]
        show RenameRun s pOld nOld pNew nNew flags ((replace pNew nNew k k' >>= _ : Op H Unit) _).1
          ((replace pNew nNew k k' >>= _ : Op H Unit) _).2
        by_cases hc : 0 < g.lookedUp.lookupCount
        · obtain ⟨d, hd⟩ : ∃ d, (((s.inodes.update k f.lookedUp).update k' g.lookedUp).setItem k
              (m.movedTo pNew nNew)).d.get? k' = some d := by
            rw [FSMeta.setItem_d_get?]
            split
            · exact ⟨_, rfl⟩
            · exact ⟨_, hget'⟩
          rw [Py.run_bind_ok (replace_hide hm hget' hd hc)]
          exact .replaced h hfind htarget hm hc hd
        · rw [Py.run_bind_ok (replace_delete hm hget' hc)]
          exact .deleted h hfind htarget hm hc

/-! ## Adding names -/

inductive CreateRun (s : Fs H) (a : CreateArgs) (now : Time) :
    Except PyError EntryAttributes → Fs H → Prop
  | orphan (parent : s.inodes.d.get? a.parent = none) :
      CreateRun s a now (.error (.fuseError .ENOENT)) s
  | unlinkedParent {p : FileInode H} (parent : s.inodes.d.get? a.parent = some p)
      (links : p.stNlink = 0) : CreateRun s a now (.error (.fuseError .EINVAL)) s
  | done {p : FileInode H} {ino : Nat} (parent : s.inodes.d.get? a.parent = some p)
      (links : p.stNlink ≠ 0) (number : NextNumber s ino) :
      CreateRun s a now (.ok ((a.newInode ino now : FileInode H).attributes ino))
        (s.withInodes (s.inodes.setItem ino (a.newInode ino now)).commit)

theorem create_run (a : CreateArgs) (now : Time) (s : Fs H) :
    CreateRun s a now (create a now s).1 (create a now s).2 := by
  unfold create
  cases hp : s.inodes.d.get? a.parent with
  | none =>
    rw [Py.run_bind_error (getattr_missing hp)]
    exact .orphan hp
  | some p =>
    rw [Py.run_bind_ok (getattr_run hp)]
    split
    · rename_i hlinks
      exact .unlinkedParent hp hlinks
    · rename_i hlinks
      obtain ⟨m, hm, _⟩ := s.inodes.max_spec hp
      rw [Py.run_bind_ok (genInodeNumber_run hm)]
      let t := (s.inodes.setItem (m + 1) (a.newInode (m + 1) now)).commit
      show CreateRun s a now (getattr (m + 1) (s.withInodes t)).1 (getattr (m + 1) (s.withInodes t)).2
      have hget : (s.withInodes t).inodes.d.get? (m + 1) = some (a.newInode (m + 1) now) := by
        show t.d.get? (m + 1) = _
        rw [FSMeta.commit_d, FSMeta.setItem_d_get?, if_pos rfl]
      rw [getattr_run hget]
      exact .done hp hlinks ⟨m, hm, rfl⟩

/-- `symlink` counts a second lookup for the inode that `_create` made. -/
inductive SymlinkRun (s : Fs H) (a : CreateArgs) (now : Time) :
    Except PyError EntryAttributes → Fs H → Prop
  | failed {e : PyError} (created : CreateRun s a now (.error e) s) : SymlinkRun s a now (.error e) s
  | done {p : FileInode H} {ino : Nat} (parent : s.inodes.d.get? a.parent = some p)
      (links : p.stNlink ≠ 0) (number : NextNumber s ino) :
      SymlinkRun s a now (.ok ((a.newInode ino now : FileInode H).attributes ino))
        (s.withInodes ((s.inodes.setItem ino (a.newInode ino now)).commit.setItem ino
          (a.newInode ino now : FileInode H).lookedUp).commit)

theorem symlink_run (inodeP : Nat) (name target : Bytes) (uid gid : Nat) (now : Time) (s : Fs H) :
    SymlinkRun s (symlinkArgs inodeP name target uid gid) now
      (symlink inodeP name target uid gid now s).1 (symlink inodeP name target uid gid now s).2 := by
  unfold symlink
  have hcreate := create_run (symlinkArgs inodeP name target uid gid) now s
  cases hc : create (symlinkArgs inodeP name target uid gid) now s with
  | mk r s₁ =>
    rw [hc] at hcreate
    cases hcreate with
    | orphan parent =>
      rw [Py.run_bind_error hc]
      exact .failed (.orphan parent)
    | unlinkedParent parent links =>
      rw [Py.run_bind_error hc]
      exact .failed (.unlinkedParent parent links)
    | @done p ino parent links number =>
      rw [Py.run_bind_ok hc]
      have hget : (s.withInodes (s.inodes.setItem ino
          ((symlinkArgs inodeP name target uid gid).newInode ino now)).commit).inodes.d.get? ino =
          some ((symlinkArgs inodeP name target uid gid).newInode ino now) := by
        rw [Fs.withInodes_inodes, FSMeta.commit_d, FSMeta.setItem_d_get?, if_pos rfl]
      show SymlinkRun s _ now ((inodeAt ino >>= _ : Op H EntryAttributes) (s.withInodes _)).1
        ((inodeAt ino >>= _ : Op H EntryAttributes) (s.withInodes _)).2
      rw [Py.run_bind_ok (inodeAt_run hget)]
      exact .done parent links number

/-- The inode that `link` makes. -/
def linkInode (inode newInodeP : Nat) (newName : Bytes) (ni : Nat) (now : Time) : FileInode H where
  inode := ni
  name := newName
  parentInode := newInodeP
  mtimeNs := timeNs now
  atimeNs := timeNs now
  ctimeNs := timeNs now
  lookupCount := 1
  hardLink := inode

inductive LinkRun (s : Fs H) (inode newInodeP : Nat) (newName : Bytes) (now : Time) :
    Except PyError EntryAttributes → Fs H → Prop
  | orphan (parent : s.inodes.d.get? newInodeP = none) :
      LinkRun s inode newInodeP newName now (.error (.fuseError .ENOENT)) s
  | unlinkedParent {p : FileInode H} (parent : s.inodes.d.get? newInodeP = some p)
      (links : p.stNlink = 0) :
      LinkRun s inode newInodeP newName now (.error (.fuseError .EINVAL)) s
  | dangling {p : FileInode H} {ni : Nat} (parent : s.inodes.d.get? newInodeP = some p)
      (links : p.stNlink ≠ 0) (number : NextNumber s ni)
      (target : (s.inodes.setItem ni (linkInode inode newInodeP newName ni now)).d.get? inode = none) :
      LinkRun s inode newInodeP newName now (.error .keyError)
        (s.withInodes (s.inodes.setItem ni (linkInode inode newInodeP newName ni now)))
  | done {p f : FileInode H} {ni : Nat} (parent : s.inodes.d.get? newInodeP = some p)
      (links : p.stNlink ≠ 0) (number : NextNumber s ni)
      (target :
        (s.inodes.setItem ni (linkInode inode newInodeP newName ni now)).d.get? inode = some f) :
      LinkRun s inode newInodeP newName now
        (.ok (({ f with stNlink := f.stNlink + 1 } : FileInode H).attributes inode))
        (s.withInodes ((s.inodes.setItem ni (linkInode inode newInodeP newName ni now)).setItem inode
          { f with stNlink := f.stNlink + 1 }).commit)

theorem link_run (inode newInodeP : Nat) (newName : Bytes) (now : Time) (s : Fs H) :
    LinkRun s inode newInodeP newName now (link inode newInodeP newName now s).1
      (link inode newInodeP newName now s).2 := by
  unfold link
  cases hp : s.inodes.d.get? newInodeP with
  | none =>
    rw [Py.run_bind_error (getattr_missing hp)]
    exact .orphan hp
  | some p =>
    rw [Py.run_bind_ok (getattr_run hp)]
    split
    · rename_i hlinks
      exact .unlinkedParent hp hlinks
    · rename_i hlinks
      obtain ⟨m, hm, _⟩ := s.inodes.max_spec hp
      rw [Py.run_bind_ok (genInodeNumber_run hm)]
      let t := s.inodes.setItem (m + 1) (linkInode inode newInodeP newName (m + 1) now)
      show LinkRun s inode newInodeP newName now
        ((inodeAt inode >>= _ : Op H EntryAttributes) (s.withInodes t)).1
        ((inodeAt inode >>= _ : Op H EntryAttributes) (s.withInodes t)).2
      cases hi : t.d.get? inode with
      | none =>
        rw [Py.run_bind_error (inodeAt_missing hi)]
        exact .dangling hp hlinks ⟨m, hm, rfl⟩ hi
      | some f =>
        rw [Py.run_bind_ok (inodeAt_run hi)]
        let t' := (t.setItem inode { f with stNlink := f.stNlink + 1 }).commit
        show LinkRun s inode newInodeP newName now (getattr inode (s.withInodes t')).1
          (getattr inode (s.withInodes t')).2
        have hget : (s.withInodes t').inodes.d.get? inode =
            some { f with stNlink := f.stNlink + 1 } := by
          show t'.d.get? inode = _
          rw [FSMeta.commit_d, FSMeta.setItem_d_get?, if_pos rfl]
        rw [getattr_run hget]
        exact .done hp hlinks ⟨m, hm, rfl⟩ hi

/-! ## Forgetting and closing -/

variable [DecidableEq H]

/-- What a round of `forget` leaves. -/
inductive ForgetOneRun (s : Fs H) (k nlookup : Nat) : Fs H → Prop
  | missing (found : s.inodes.d.get? k = none) : ForgetOneRun s k nlookup s
  | root {f : FileInode H} (found : s.inodes.d.get? k = some f) (root : f.inode = ROOT_INODE) :
      ForgetOneRun s k nlookup (s.withInodes (s.inodes.setItem k { f with lookupCount := 1 }))
  | kept {f : FileInode H} {g : Globals H} (found : s.inodes.d.get? k = some f)
      (notRoot : f.inode ≠ ROOT_INODE) :
      ForgetOneRun s k nlookup ⟨s.inodes.setItem k (f.forgotten nlookup), g⟩
  | removed {f : FileInode H} {g : Globals H} (found : s.inodes.d.get? k = some f)
      (notRoot : f.inode ≠ ROOT_INODE) (links : f.stNlink ≤ 0) :
      ForgetOneRun s k nlookup ⟨((s.inodes.setItem k (f.forgotten nlookup)).delItem k).2, g⟩

/-- **A round of `forget`** returns; an inode without links is removed unless the removal fails. -/
theorem forgetOne_run (cfg : Config) (clock : Nat → Time) (k nlookup : Nat) (s : Fs H) :
    (forgetOne cfg clock k nlookup s).1 = .ok () ∧
      ForgetOneRun s k nlookup (forgetOne cfg clock k nlookup s).2 := by
  unfold forgetOne
  rw [Py.attempt_pass]
  refine ⟨rfl, ?_⟩
  cases hk : s.inodes.d.get? k with
  | none =>
    rw [Py.run_bind_error (inodeAt_missing hk)]
    exact .missing hk
  | some f =>
    rw [Py.run_bind_ok (inodeAt_run hk)]
    split
    · rename_i hroot
      let s₁ := s.withInodes (s.inodes.setItem k (f.forgotten nlookup))
      show ForgetOneRun s k nlookup ((if f.stNlink ≤ 0 then _ else _ : Op H Unit) s₁).2
      split
      · rename_i hlinks
        have hget : s₁.inodes.d.get? k = some (f.forgotten nlookup) := by
          show (s.inodes.setItem k (f.forgotten nlookup)).d.get? k = _
          rw [FSMeta.setItem_d_get?, if_pos rfl]
        rw [Py.run_bind_ok (getattr_run hget)]
        show ForgetOneRun s k nlookup (removeInode cfg clock f.parentInode f.name k s₁).2
        rcases removeInode_cases cfg clock f.parentInode f.name k s₁ with
          heq | ⟨_, _, g, _, _, _, ⟨_, heq⟩ | ⟨_, heq⟩⟩
        · rw [heq]
          exact .kept hk hroot
        · rw [heq]
          exact .kept hk hroot
        · rw [heq]
          exact .removed hk hroot hlinks
      · exact .kept hk hroot
    · rename_i hroot
      exact .root hk (Decidable.not_not.mp hroot)

/-- The rounds of a `forget`. -/
inductive ForgetRounds : List (Nat × Nat) → Fs H → Fs H → Prop
  | nil (s : Fs H) : ForgetRounds [] s s
  | cons {n : Nat × Nat} {l : List (Nat × Nat)} {s s₁ s₂ : Fs H} (first : ForgetOneRun s n.1 n.2 s₁)
      (rest : ForgetRounds l s₁ s₂) : ForgetRounds (n :: l) s s₂

omit [DecidableEq H] in
/-- A count is set, for one inode. -/
theorem recount_get? {t : FSMeta H} {x : Nat} {g : FileInode H} (c : Int)
    (hg : t.d.get? x = some g) (k : Nat) :
    (t.d.get? k = none → (t.setItem x { g with lookupCount := c }).d.get? k = none) ∧
    ∀ f, t.d.get? k = some f → ∃ c',
      (t.setItem x { g with lookupCount := c }).d.get? k = some { f with lookupCount := c' } := by
  have hget := t.setItem_d_get? x k { g with lookupCount := c }
  by_cases e : x = k
  · subst e
    refine ⟨fun hk => ?_, fun f hf => ⟨c, ?_⟩⟩
    · rw [hk] at hg
      cases hg
    · rw [hf] at hg
      cases hg
      exact hget.trans (if_pos rfl)
  · rw [if_neg e] at hget
    exact ⟨fun hk => hget.trans hk, fun f hf => ⟨f.lookupCount, hget.trans hf⟩⟩

omit [DecidableEq H] in
/-- The rounds of a `forget`, for one inode: it stays with another count, or it had no link. -/
theorem ForgetRounds.inode {l : List (Nat × Nat)} {s s' : Fs H} (h : ForgetRounds l s s') (k : Nat) :
    (s.inodes.d.get? k = none → s'.inodes.d.get? k = none) ∧
    ∀ f, s.inodes.d.get? k = some f →
      (∃ c, s'.inodes.d.get? k = some { f with lookupCount := c }) ∨
      (s'.inodes.d.get? k = none ∧ (∃ n, (k, n) ∈ l) ∧ f.inode ≠ ROOT_INODE ∧ f.stNlink ≤ 0) := by
  induction h with
  | nil s => exact ⟨id, fun f hf => .inl ⟨f.lookupCount, hf⟩⟩
  | @cons n l s s₁ s₂ first rest ih =>
    -- one round, for the inode `k`
    have hround : (s.inodes.d.get? k = none → s₁.inodes.d.get? k = none) ∧
        ∀ f, s.inodes.d.get? k = some f →
          (∃ c, s₁.inodes.d.get? k = some { f with lookupCount := c }) ∨
          (s₁.inodes.d.get? k = none ∧ n.1 = k ∧ f.inode ≠ ROOT_INODE ∧ f.stNlink ≤ 0) := by
      cases first with
      | missing found => exact ⟨id, fun f hf => .inl ⟨f.lookupCount, hf⟩⟩
      | root found root => exact ⟨(recount_get? _ found k).1, fun f hf => .inl ((recount_get? _ found k).2 f hf)⟩
      | kept found notRoot => exact ⟨(recount_get? _ found k).1, fun f hf => .inl ((recount_get? _ found k).2 f hf)⟩
      | @removed g _ found notRoot links =>
        have hdel := FSMeta.delItem_d_get? (s.inodes.setItem n.1 (g.forgotten n.2)) n.1 k
        refine ⟨fun hk => ?_, fun f hf => ?_⟩
        · rcases hdel with e | ⟨_, e⟩
          · exact e.trans ((recount_get? (g.lookupCount - n.2) found k).1 hk)
          · exact e
        · rcases hdel with e | ⟨hn, e⟩
          · obtain ⟨c, hc⟩ := (recount_get? (g.lookupCount - n.2) found k).2 f hf
            exact .inl ⟨c, e.trans hc⟩
          · rw [← hn, found] at hf
            cases hf
            exact .inr ⟨e, hn, notRoot, links⟩
    refine ⟨fun hk => ih.1 (hround.1 hk), fun f hf => ?_⟩
    rcases hround.2 f hf with ⟨c, hc⟩ | ⟨hgone, hn, hroot, hlinks⟩
    · rcases ih.2 _ hc with ⟨c', hc'⟩ | ⟨hgone, ⟨m, hm⟩, hroot, hlinks⟩
      · exact .inl ⟨c', hc'⟩
      · exact .inr ⟨hgone, ⟨m, List.mem_cons_of_mem _ hm⟩, hroot, hlinks⟩
    · exact .inr ⟨ih.1 hgone, ⟨n.2, by rw [← hn]; exact List.mem_cons_self⟩, hroot, hlinks⟩

theorem forget_run (cfg : Config) (clock : Nat → Nat → Time) (l : List (Nat × Nat)) (s : Fs H) :
    ∃ s₁, ForgetRounds l s s₁ ∧
      forget cfg clock l s = (.ok (), s₁.withInodes s₁.inodes.commit) := by
  have hrounds : ∀ (l : List (Nat × Nat)) (i : Nat) (s : Fs H), ∃ s₁, ForgetRounds l s s₁ ∧
      Py.forEach (fun n => forgetOne cfg (clock n.2) n.1.1 n.1.2) (l.zipIdx i) s = (.ok (), s₁) := by
    intro l
    induction l with
    | nil => exact fun i s => ⟨s, .nil s, rfl⟩
    | cons n l ih =>
      intro i s
      obtain ⟨hok, hone⟩ := forgetOne_run cfg (clock i) n.1 n.2 s
      obtain ⟨s₁, hl, hrun⟩ := ih (i + 1) (forgetOne cfg (clock i) n.1 n.2 s).2
      refine ⟨s₁, .cons hone hl, ?_⟩
      rw [List.zipIdx_cons, Py.forEach]
      exact (Py.run_bind_ok (Prod.ext hok rfl)).trans hrun
  obtain ⟨s₁, hl, hrun⟩ := hrounds l 0 s
  refine ⟨s₁, hl, ?_⟩
  unfold forget
  rw [Py.run_bind_ok hrun]
  rfl

/-- The tables after `release`. -/
inductive ReleaseRun (v : Vfs H) (fh : Nat) : Vfs H → Prop
  | kept {t : FSMeta H} {g : Globals H} {o : Dict Nat Int}
      (same : t = v.fs.inodes ∨ t = v.fs.inodes.commit) : ReleaseRun v fh ⟨⟨t, g⟩, o⟩
  | removed {f : FileInode H} {t : FSMeta H} {g : Globals H} {o : Dict Nat Int}
      (last : v.openCount fh = 1) (found : v.fs.inodes.d.get? fh = some f) (links : f.stNlink = 0)
      (gone : t = (v.fs.inodes.delItem fh).2 ∨ t = (v.fs.inodes.delItem fh).2.commit) :
      ReleaseRun v fh ⟨⟨t, g⟩, o⟩

theorem removeUnlinked_cases (cfg : Config) (clock : Nat → Time) (fh : Nat) (s : Fs H) :
    (Vfs.removeUnlinked cfg clock fh s).2.inodes = s.inodes ∨
    ∃ f, s.inodes.d.get? fh = some f ∧ f.stNlink = 0 ∧
      (Vfs.removeUnlinked cfg clock fh s).2.inodes = (s.inodes.delItem fh).2 := by
  unfold Vfs.removeUnlinked
  cases hf : s.inodes.d.get? fh with
  | none =>
    rw [Py.run_bind_error (inodeAt_missing hf)]
    exact .inl rfl
  | some f =>
    rw [Py.run_bind_ok (inodeAt_run hf)]
    split
    · rename_i hlinks
      rw [Py.run_bind_ok (getattr_run hf)]
      show (removeInode cfg clock f.parentInode f.name fh s).2.inodes = _ ∨ ∃ f', _ ∧ _ ∧
        (removeInode cfg clock f.parentInode f.name fh s).2.inodes = _
      rcases removeInode_cases cfg clock f.parentInode f.name fh s with
        heq | ⟨_, _, g, _, _, _, ⟨_, heq⟩ | ⟨_, heq⟩⟩
      · rw [heq]
        exact .inl rfl
      · rw [heq]
        exact .inl rfl
      · rw [heq]
        exact .inr ⟨f, rfl, hlinks, rfl⟩
    · exact .inl rfl

omit [DecidableEq H] in
theorem addOpen_openCount (v : Vfs H) (fh k : Nat) (n : Int) :
    (Vfs.addOpen fh n v).2.openCount k = if fh = k then v.openCount fh + n else v.openCount k := by
  show ((v.inodeOpenCount.set fh (v.openCount fh + n)).get? k).getD 0 = _
  rw [Dict.get?_set]
  split <;> rfl

/-- **`release`** closes one file. -/
theorem release_run (cfg : Config) (clock : Nat → Time) (fh : Nat) (v : Vfs H) :
    ReleaseRun v fh (Vfs.release cfg clock fh v).2 ∧
      ∀ k, (Vfs.release cfg clock fh v).2.openCount k =
        if fh = k then v.openCount fh - 1 else v.openCount k := by
  let v₁ : Vfs H := (Vfs.addOpen fh (-1) v).2
  have hopen : ∀ k, v₁.openCount k = if fh = k then v.openCount fh - 1 else v.openCount k :=
    fun k => addOpen_openCount v fh k (-1)
  unfold Vfs.release
  show ReleaseRun v fh ((if v₁.openCount fh = 0 then _ else _ : Py PyError (Vfs H) Unit) v₁).2 ∧
    ∀ k, ((if v₁.openCount fh = 0 then _ else _ : Py PyError (Vfs H) Unit) v₁).2.openCount k = _
  split
  · rename_i hzero
    let v₂ : Vfs H := { v₁ with inodeOpenCount := v₁.inodeOpenCount.erase fh }
    have hopen₂ : ∀ k, v₂.openCount k = if fh = k then v.openCount fh - 1 else v.openCount k := by
      intro k
      show ((v₁.inodeOpenCount.erase fh).get? k).getD 0 = _
      rw [Dict.get?_erase]
      split
      · rw [← if_pos (c := fh = fh) rfl (t := v.openCount fh - 1), ← hopen, hzero]
        rfl
      · rename_i e
        exact (hopen k).trans (if_neg e)
    have hlast : v.openCount fh = 1 := by
      have h := hopen fh
      rw [if_pos rfl, hzero] at h
      omega
    have hcases := removeUnlinked_cases cfg clock fh v.fs
    show ReleaseRun v fh ((Vfs.onFs (Vfs.removeUnlinked cfg clock fh) >>= fun _ =>
      Vfs.onFs commitInodes : Py PyError (Vfs H) Unit) v₂).2 ∧
      ∀ k, ((Vfs.onFs (Vfs.removeUnlinked cfg clock fh) >>= fun _ =>
        Vfs.onFs commitInodes : Py PyError (Vfs H) Unit) v₂).2.openCount k = _
    cases hr : Vfs.removeUnlinked cfg clock fh v.fs with
    | mk r s' =>
      rw [hr] at hcases
      have hfs : Vfs.onFs (Vfs.removeUnlinked cfg clock fh) v₂ = (r, { v₂ with fs := s' }) := by
        show ((Vfs.removeUnlinked cfg clock fh v.fs).1,
          ({ v₂ with fs := (Vfs.removeUnlinked cfg clock fh v.fs).2 } : Vfs H)) = _
        rw [hr]
      cases r with
      | error e =>
        rw [Py.run_bind_error hfs]
        refine ⟨?_, hopen₂⟩
        rcases hcases with heq | ⟨f, hf, hlinks, heq⟩
        · exact .kept (.inl heq)
        · exact .removed hlast hf hlinks (.inl heq)
      | ok _ =>
        rw [Py.run_bind_ok hfs]
        refine ⟨?_, hopen₂⟩
        rcases hcases with heq | ⟨f, hf, hlinks, heq⟩
        · exact .kept (.inr (congrArg FSMeta.commit heq))
        · exact .removed hlast hf hlinks (.inr (congrArg FSMeta.commit heq))
  · exact ⟨.kept (.inr rfl), hopen⟩

end VeratyFS
