import VeratyFS.FileStore
import VeratyFS.Tree
import VeratyFS.Readdir

/-!
# What a user sees

The bytes of the files (`FileStore`) and the tree of their names (`Tree`) in one view, together with
the attributes that only `setattr` changes: the program goes on as the view does, through all calls,
threads and mounts.

* `Stat`, `Node`, `UserView` — a tree of names, and files with their bytes and attributes.
* `UserStep`, `userViews` — what an event does to the view, and how it is answered.
* `Event.Respects` — what the kernel sends.
* `Treelike.follows` — a table that keeps its entries shows the same tree.
* `userView_refines` — every step of the store is a step of the view.
* `fileStore_userView` — every run on a new file system, and what can be read from the state it ends in.
-/

set_option autoImplicit false
set_option maxRecDepth 1024

namespace VeratyFS

open Pylib

variable {H : Type}

/-! ## Attributes -/

/-- The attributes that stay until `setattr` changes them, and the target of a link. -/
structure Stat where
  mode : Nat
  uid : Nat
  gid : Nat
  rdev : Nat
  target : Bytes
  deriving DecidableEq

def FileInode.stat (f : FileInode H) : Stat := ⟨f.mode, f.uid, f.gid, f.rdev, f.target⟩

def CreateArgs.stat (a : CreateArgs) : Stat := ⟨a.mode, a.uid, a.gid, a.rdev, a.target.getD []⟩

/-- The attributes after a `setattr` call. -/
def Stat.updated (st : Stat) (a : SetattrFields) : Stat :=
  { st with mode := a.stMode.getD st.mode, uid := a.stUid.getD st.uid, gid := a.stGid.getD st.gid }

/-- The attributes of the inode that a request makes. -/
def Request.made : Request → Option Stat
  | .create a => some a.stat
  | .mkdir a => some a.stat
  | .mknod a rdev => some { a.stat with rdev := rdev }
  | .symlink p n target uid gid => some (symlinkArgs p n target uid gid).stat
  | _ => none

/-! ## The view -/

/-- A file as a user sees it. -/
structure Node where
  content : Bytes
  stat : Stat
  deriving DecidableEq

/-- The attributes in a reply are those of the file. -/
structure Node.ShownIn (n : Node) (e : EntryAttributes) : Prop where
  mode : e.stMode = n.stat.mode
  uid : e.stUid = n.stat.uid
  gid : e.stGid = n.stat.gid
  rdev : e.stRdev = n.stat.rdev
  size : e.stSize = n.content.length

structure UserView where
  tree : DirTree Nat Bytes
  nodes : Nat → Option Node

def UserView.files (u : UserView) : PlainFiles := fun k => (u.nodes k).map Node.content

/-- The entries of a directory, each once. -/
def Enumerates (T : DirTree Nat Bytes) (p : Nat) (l : List (Bytes × Nat × Bool)) : Prop :=
  (l.map Prod.fst).Nodup ∧ ∀ n k d, (n, k, d) ∈ l ↔ T.entries p n = some (k, d)

/-- What the requests that look at the tree get. -/
def Request.sees (T : DirTree Nat Bytes) (r : Except PyError Reply) : Request → Prop
  | .lookup p n =>
    (T.entries p n = none ∧ r = .error (.fuseError .ENOENT)) ∨
      ∃ e, T.entries p n = some (e.stIno, S_ISDIR e.stMode) ∧ r = .ok (.entry e)
  | .readdir inode off _ => ∃ l, Enumerates T inode l ∧
    ((l[off]? = none ∧ r = .ok (.listing none)) ∨
      ∃ n e, l[off]? = some (n, e.stIno, S_ISDIR e.stMode) ∧
        r = .ok (.listing (some (n, e, off + 1))))
  | _ => True

def Event.onTree (T : DirTree Nat Bytes) (r : Except PyError Answer) (T' : DirTree Nat Bytes) :
    Event H → Prop
  | .request q _ => ∃ o, r = o.map .reply ∧ q.onTree T o T' ∧ q.sees T o
  | _ => T' = T

/-- The attributes that an event leaves a file. -/
def Event.leaves (k : Nat) (st : Stat) : Event H → Stat
  | .setattr inode a _ => if k = inode then st.updated a else st
  | _ => st

def Event.made : Event H → Option Stat
  | .request q _ => q.made
  | _ => none

/-- The attributes in an answer. -/
def Answer.shows : Answer → Option EntryAttributes
  | .reply r => r.shows
  | .attributes e => some e
  | _ => none

/-- Contents, names and attributes change as the event says, and are what it is answered. -/
structure UserStep (u : UserView) (x : Event H × Except PyError Answer) (u' : UserView) : Prop where
  files : PlainStep u.files x u'.files
  tree : x.1.onTree u.tree x.2 u'.tree
  kept : ∀ k n n', u.nodes k = some n → u'.nodes k = some n' → n'.stat = x.1.leaves k n.stat
  made : ∀ k n', u.nodes k = none → u'.nodes k = some n' → x.1.made = some n'.stat
  shown : ∀ o e, x.2 = .ok o → o.shows = some e → ∃ n, u'.nodes e.stIno = some n ∧ n.ShownIn e

/-- The view of a new file system. -/
def rootView : UserView :=
  ⟨rootTree, Function.update (fun _ => none) ROOT_INODE (some ⟨[], ⟨16877, 0, 0, 0, []⟩⟩)⟩

/-! ## What the kernel sends -/

/-- What `rename` replaces is empty. -/
def Request.findsEmpty (t : FSMeta H) : Request → Prop
  | .rename _ _ pNew nNew flags =>
    flags = 0 → ∀ k f, t.d.get? k = some f → f.named pNew nNew = true → dirEntries t k = []
  | _ => True

/-- The requests are those of a kernel; `setattr` makes no directory of a file; and an inode without
a name is forgotten before the file system is unmounted. -/
def Event.Respects (v : Running H) : Event H → Prop
  | .request q _ => q.respects v.fs.inodes ∧ q.findsEmpty v.fs.inodes
  | .setattr inode a _ => ∀ f mode, v.fs.inodes.d.get? inode = some f → a.stMode = some mode →
    S_ISDIR mode = S_ISDIR f.mode
  | .mount _ _ _ => ∀ k f, v.fs.inodes.d.get? k = some f → f.listOnDirLookup = true
  | _ => True

/-! ## Tables that keep their entries -/

/-- The entry is the same, and a directory stays a directory. -/
structure FileInode.SameEntry (f f' : FileInode H) : Prop where
  parent : f'.parentInode = f.parentInode
  name : f'.name = f.name
  listed : f'.listOnDirLookup = f.listOnDirLookup
  links : f'.stNlink = f.stNlink
  kind : S_ISDIR f'.mode = S_ISDIR f.mode

namespace FileInode.SameEntry

variable {f f' : FileInode H}

theorem refl (f : FileInode H) : f.SameEntry f := ⟨rfl, rfl, rfl, rfl, rfl⟩

theorem named (h : f.SameEntry f') (p : Nat) (n : Bytes) : f'.named p n = f.named p n := by
  simp [FileInode.named, h.parent, h.name, h.listed]

theorem of_attributes (h : f.SameAttributes f') : f.SameEntry f' := by
  unfold FileInode.SameAttributes at h
  constructor <;> rw [h]

/-- `setattr` with a mode of the same kind. -/
theorem withAttributes (f : FileInode H) {a : SetattrFields}
    (hkind : ∀ mode, a.stMode = some mode → S_ISDIR mode = S_ISDIR f.mode) (now : Time) :
    f.SameEntry (f.withAttributes a now) := by
  refine ⟨rfl, rfl, rfl, rfl, ?_⟩
  change S_ISDIR (a.stMode.getD f.mode) = S_ISDIR f.mode
  cases hm : a.stMode with
  | none => rfl
  | some mode => exact hkind mode hm

theorem trans {f'' : FileInode H} (h : f.SameEntry f') (h' : f'.SameEntry f'') : f.SameEntry f'' :=
  ⟨h'.parent.trans h.parent, h'.name.trans h.name, h'.listed.trans h.listed,
    h'.links.trans h.links, h'.kind.trans h.kind⟩

end FileInode.SameEntry

theorem FileInode.SameAttributes.stat {f f' : FileInode H} (h : f.SameAttributes f') :
    f'.stat = f.stat := by
  unfold FileInode.SameAttributes at h
  rw [h]
  rfl

theorem FileInode.Kept.stat {f f' : FileInode H} (h : f.Kept f') : f'.stat = f.stat := by
  rw [h.eq]
  rfl

/-- The inodes are the same, with their entries. -/
structure SameEntries (t t' : FSMeta H) : Prop where
  none : ∀ k, t.d.get? k = none → t'.d.get? k = none
  some : ∀ k f, t.d.get? k = some f → ∃ f', t'.d.get? k = some f' ∧ f.SameEntry f'

/-- **A table with the same entries shows the same tree.** -/
theorem Treelike.follows {t t' : FSMeta H} {T : DirTree Nat Bytes} (h : Treelike t T)
    (hself : SelfNumbered t') (he : SameEntries t t') : Treelike t' T := by
  have hold : ∀ k f', t'.d.get? k = some f' → ∃ f, t.d.get? k = some f ∧ f.SameEntry f' := by
    intro k f' hf'
    cases hf : t.d.get? k with
    | none =>
      rw [he.none k hf] at hf'
      cases hf'
    | some f =>
      obtain ⟨f₁, hf₁, hsame⟩ := he.some k f hf
      rw [hf'] at hf₁
      cases hf₁
      exact ⟨f, rfl, hsame⟩
  refine h.same hself (fun q m x e => ⟨?_, ?_⟩) fun k f' hf' => ?_
  · rintro ⟨f', hf', hn, hkind⟩
    obtain ⟨f, hf, hsame⟩ := hold x f' hf'
    exact ⟨f, hf, (hsame.named q m).symm.trans hn, hsame.kind.symm.trans hkind⟩
  · rintro ⟨f, hf, hn, hkind⟩
    obtain ⟨f', hf', hsame⟩ := he.some x f hf
    exact ⟨f', hf', (hsame.named q m).trans hn, hsame.kind.trans hkind⟩
  · obtain ⟨f, hf, hsame⟩ := hold k f' hf'
    rw [hsame.links, hsame.listed, h.links k f hf]

/-! ## Looking at the tree -/

section

variable {t : FSMeta H} {T : DirTree Nat Bytes}

theorem mem_dirEntries (hs : SelfNumbered t) {p : Nat} {f : FileInode H} :
    f ∈ dirEntries t p ↔
      t.d.get? f.inode = some f ∧ f.parentInode = p ∧ f.listOnDirLookup = true := by
  constructor
  · intro h
    obtain ⟨i, hi⟩ := List.mem_iff_getElem?.mp h
    have hlists := (List.mem_filter.mp h).2
    exact ⟨(dirEntries_getElem? hs hi).1, of_decide_eq_true hlists⟩
  · rintro ⟨hf, hparent, hlisted⟩
    refine List.mem_filter.mpr ⟨?_, decide_eq_true ⟨hparent, hlisted⟩⟩
    exact List.mem_map_of_mem (f := Prod.snd) (t.d.mem_entries_iff.mpr hf)

/-- **The listing of `readdir`** has every entry of the directory once. -/
theorem Treelike.enumerates (h : Treelike t T) (p : Nat) :
    Enumerates T p ((dirEntries t p).map fun f => (f.name, f.inode, S_ISDIR f.mode)) := by
  constructor
  · rw [List.map_map]
    have hnodup : ((dirEntries t p).map FileInode.inode).Nodup := by
      rw [dirEntries_inodes h.self]
      exact t.d.nodup.filter _
    refine List.Nodup.map_on (fun f hf g hg hname => ?_) (List.Nodup.of_map _ hnodup)
    obtain ⟨hf, hfp, hfl⟩ := (mem_dirEntries h.self).mp hf
    obtain ⟨hg, hgp, hgl⟩ := (mem_dirEntries h.self).mp hg
    have hinode : f.inode = g.inode := h.shows.unique f.inode g.inode f g p f.name hf hg
      (FileInode.named_iff.mpr ⟨hfp, rfl, hfl⟩) (FileInode.named_iff.mpr ⟨hgp, hname.symm, hgl⟩)
    rw [hinode, hg] at hf
    exact (Option.some.inj hf).symm
  · intro n k d
    rw [← h.shows p n k d, List.mem_map]
    constructor
    · rintro ⟨f, hf, he⟩
      obtain ⟨hf, hparent, hlisted⟩ := (mem_dirEntries h.self).mp hf
      cases he
      exact ⟨f, hf, FileInode.named_iff.mpr ⟨hparent, rfl, hlisted⟩, rfl⟩
    · rintro ⟨f, hf, hn, rfl⟩
      obtain ⟨hparent, rfl, hlisted⟩ := FileInode.named_iff.mp hn
      have hinode : f.inode = k := h.self k f hf
      subst hinode
      exact ⟨f, (mem_dirEntries h.self).mpr ⟨hf, hparent, hlisted⟩, rfl⟩

end

variable [DecidableEq H] {cfg : Config} {P : Packages H} {content : H → Bytes} {C : Set Bytes}
  {v : Running H} {T : DirTree Nat Bytes}

/-- **Requests see the tree.** -/
theorem Treelike.sees {v : Vfs H} (h : Treelike v.fs.inodes T) (clock : Nat → Nat → Time)
    (q : Request) : q.sees T (q.handle cfg clock v).1 := by
  cases q with
  | lookup p n =>
    rw [Request.handle, answer_run]
    have hrun := lookup_run h.self p n
    generalize Fs.lookup p n v.fs = r at hrun ⊢
    obtain ⟨r, s⟩ := r
    cases hrun with
    | missing found => exact .inl ⟨h.shows.find_none found, rfl⟩
    | done found => exact .inr ⟨_, h.shows.find found, rfl⟩
  | readdir inode off accepted =>
    rw [Request.handle, answer_run]
    refine ⟨_, h.enumerates inode, ?_⟩
    rw [List.getElem?_map]
    cases hlisted : (dirEntries v.fs.inodes inode)[off]? with
    | none =>
      rw [readdir_past hlisted]
      exact .inl ⟨rfl, rfl⟩
    | some f =>
      rw [readdir_listed h.self hlisted]
      exact .inr ⟨f.name, f.attributes f.inode, rfl, rfl⟩
  | _ => trivial

/-! ## Requests -/

omit [DecidableEq H] in
theorem CreateRun.made {a : CreateArgs} {now : Time} {r : Except PyError EntryAttributes} {s s' : Fs H}
    (h : CreateRun s a now r s') {k : Nat} {f : FileInode H} (hnone : s.inodes.d.get? k = none)
    (hf : s'.inodes.d.get? k = some f) : f.stat = a.stat := by
  cases h with
  | orphan parent =>
    rw [hnone] at hf
    cases hf
  | unlinkedParent parent links =>
    rw [hnone] at hf
    cases hf
  | done parent links number =>
    rw [Fs.withInodes_inodes, FSMeta.commit_d, FSMeta.setItem_d_get?] at hf
    split at hf
    · cases hf
      rfl
    · rw [hnone] at hf
      cases hf

omit [DecidableEq H] in
/-- **A new inode has the attributes that were asked for.** -/
theorem Handled.made {v : Vfs H} {q : Request} {r : Except PyError Reply} {s : Fs H} {now : Time}
    (h : Handled v now q r s) (hrespects : q.respects v.fs.inodes) {k : Nat} {f : FileInode H}
    (hnone : v.fs.inodes.d.get? k = none) (hf : s.inodes.d.get? k = some f) :
    q.made = some f.stat := by
  have hadds : q.adds = true := (h.added.listed_cases hf hnone).1
  cases h with
  | create run => exact congrArg some (run.made hnone hf).symm
  | mkdir run => exact congrArg some (run.made hnone hf).symm
  | mknod run => exact congrArg some (run.made hnone hf).symm
  | symlink run =>
    cases run with
    | failed created => exact congrArg some (created.made hnone hf).symm
    | done parent links number =>
      rw [Fs.withInodes_inodes, FSMeta.commit_d, FSMeta.setItem_d_get?] at hf
      split at hf
      · cases hf
        rfl
      · rename_i hne
        rw [FSMeta.commit_d, FSMeta.setItem_d_get?, if_neg hne, hnone] at hf
        cases hf
  | link run => exact absurd hrespects id
  | _ => cases hadds

omit [DecidableEq H] in
/-- The numbers of recorded inodes fit their keys. -/
theorem Filed.keepsTree {t : FSMeta H} (h : Filed t) {q : Request} (hq : q.findsEmpty t) :
    q.keepsTree t := by
  cases q with
  | rmdir p n => exact fun k f hf _ _ _ => toBytes_isSome.mp (h.fits k f hf)
  | rename pOld nOld pNew nNew flags =>
    exact fun hflags k f hf hn => ⟨hq hflags k f hf hn, .inr (toBytes_isSome.mp (h.fits k f hf))⟩
  | _ => trivial

/-! ## The other events -/

theorem updateSize_attributes (env : CallEnv H) (f : FileInode H) (size : Option Nat) :
    Py.Keeps AttributesKept (updateSize cfg P env f size) := by
  cases size with
  | none => exact Py.keeps_pure _
  | some n =>
    refine Py.keeps_attempt ?_ fun _ => Py.keeps_pure _
    unfold resize
    split
    · exact Py.keeps_bind (write_attributes _ _ _ _) fun _ => Py.keeps_pure _
    · split
      · exact truncateDown_attributes env f.inode n
      · exact Py.keeps_pure _

theorem updateSize_ne_error {env : CallEnv H} {f : FileInode H} {size : Option Nat} {s s' : Fs H}
    {e : PyError} : updateSize cfg P env f size s ≠ (.error e, s') := by
  intro h
  cases size with
  | none => cases h
  | some n =>
    change Py.attempt (resize cfg P env f n) (fun _ => pure ()) s = (.error e, s') at h
    cases hr : resize cfg P env f n s with
    | mk r s₁ =>
      cases r with
      | ok a =>
        rw [Py.run_attempt_ok hr] at h
        cases h
      | error e =>
        rw [Py.run_attempt_error hr] at h
        cases h

/-- The inodes stay with their entries, and with the attributes that the event leaves them. -/
def Event.Evolves (e : Event H) (t t' : FSMeta H) : Prop :=
  ∀ k f, t.d.get? k = some f →
    ∃ f', t'.d.get? k = some f' ∧ f.SameEntry f' ∧ f'.stat = e.leaves k f.stat

omit [DecidableEq H] in
theorem AttributesKept.evolves {e : Event H} {s s' : Fs H} (h : AttributesKept s s')
    (he : ∀ k st, e.leaves k st = st) : e.Evolves s.inodes s'.inodes := by
  intro k f hf
  obtain ⟨f', hf', hsame⟩ := h k f hf
  exact ⟨f', hf', .of_attributes hsame, hsame.stat.trans (he k f.stat).symm⟩

/-- The stages of `setattr`: what resizing raises is logged. -/
theorem setattr_stages (cfg : Config) (P : Packages H) {inode : Nat} (a : SetattrFields) (env : CallEnv H) {s : Fs H} {f : FileInode H}
    (hf : s.inodes.d.get? inode = some f) : ∃ s₁ f₁, AttributesKept s s₁ ∧
      s₁.inodes.d.get? inode = some f₁ ∧ f.SameAttributes f₁ ∧ setattr cfg P env inode a s =
        (.ok ((f₁.withAttributes a (env.clock 0)).attributes inode),
          { s₁ with inodes := s₁.inodes.setItem inode (f₁.withAttributes a (env.clock 0)) }) := by
  have hkept : AttributesKept s (updateSize cfg P env f a.stSize s).2 :=
    updateSize_attributes env f a.stSize s
  cases hr : updateSize cfg P env f a.stSize s with
  | mk r s₁ =>
    rw [hr] at hkept
    cases r with
    | error e => exact absurd hr updateSize_ne_error
    | ok _ =>
      obtain ⟨f₁, hf₁, hsame⟩ := hkept inode f hf
      refine ⟨s₁, f₁, hkept, hf₁, hsame, ?_⟩
      unfold setattr
      rw [Py.run_bind_ok (inodeAt_run hf), Py.run_bind_ok hr, setAttributes_getattr hf₁ a (env.clock 0)]

/-- **`setattr`** keeps the entries, and changes the attributes that it is given. -/
theorem setattr_evolves {inode : Nat} {a : SetattrFields} {env : CallEnv H} {s : Fs H}
    (hkind : ∀ f mode, s.inodes.d.get? inode = some f → a.stMode = some mode →
      S_ISDIR mode = S_ISDIR f.mode) :
    (Event.setattr inode a env).Evolves s.inodes (setattr cfg P env inode a s).2.inodes := by
  intro k f hf
  cases hi : s.inodes.d.get? inode with
  | none =>
    have hne : ¬ k = inode := fun e => by
      rw [e, hi] at hf
      cases hf
    unfold setattr
    rw [Py.run_bind_error (inodeAt_missing hi)]
    exact ⟨f, hf, .refl f, (if_neg hne).symm⟩
  | some old =>
    obtain ⟨s₁, old₁, hkept, hold₁, hsame, hrun⟩ := setattr_stages cfg P a env hi
    obtain ⟨f₁, hf₁, hf⟩ := hkept k f hf
    rw [hrun]
    change ∃ f', (s₁.inodes.setItem inode (old₁.withAttributes a (env.clock 0))).d.get? k = some f' ∧ _
    rw [FSMeta.setItem_d_get?]
    by_cases e : inode = k
    · subst e
      rw [hold₁] at hf₁
      cases hf₁
      have hmode : ∀ mode, a.stMode = some mode → S_ISDIR mode = S_ISDIR old₁.mode := by
        intro mode hm
        rw [hkind old mode hi hm]
        exact (FileInode.SameEntry.of_attributes hsame).kind.symm
      refine ⟨_, if_pos rfl, (FileInode.SameEntry.of_attributes hf).trans (.withAttributes _ hmode _), ?_⟩
      rw [Event.leaves, if_pos rfl, ← hf.stat]
      rfl
    · refine ⟨f₁, (if_neg e).trans hf₁, .of_attributes hf, ?_⟩
      rw [Event.leaves, if_neg (Ne.symm e)]
      exact hf.stat

/-- **Every event other than a request** keeps the inodes with their entries. -/
theorem Event.evolves (h : Whole cfg P content C v.writers v.fs) (ht : Treelike v.fs.inodes T) {e : Event H}
    (hok : e.Permitted cfg P content C v) (hrespects : e.Respects v)
    (hnot : ∀ q clock, e ≠ .request q clock) :
    e.Evolves v.fs.inodes (e.handle cfg P v).2.fs.inodes := by
  have hsame : ∀ {e : Event H} {t : FSMeta H}, t.d = v.fs.inodes.d → (∀ k st, e.leaves k st = st) →
      e.Evolves v.fs.inodes t := by
    intro e t hd he k f hf
    exact ⟨f, (congrArg (Dict.get? · k) hd).trans hf, .refl f, (he k f.stat).symm⟩
  cases e with
  | request q clock => exact absurd rfl (hnot q clock)
  | getattr inode => exact hsame (by rw [Event.handle, answered, getattr_state]) fun _ _ => rfl
  | setattr inode a env => exact setattr_evolves hrespects
  | read fh offset length now =>
    have hkept : AttributesKept v.fs (VeratyFS.read cfg P fh offset length now v.fs).2 :=
      read_attributes fh offset length now v.fs
    apply hkept.evolves
    intro _ _
    rfl
  | write fh offset buf now =>
    have hkept : AttributesKept v.fs (VeratyFS.write cfg P fh offset buf now v.fs).2 :=
      write_attributes fh offset buf now v.fs
    apply hkept.evolves
    intro _ _
    rfl
  | flush => exact hsame (FSMeta.commit_d v.fs.inodes) fun _ _ => rfl
  | writer i env =>
    refine hsame ?_ fun _ _ => rfl
    change (v.runWriter cfg i env).fs.inodes.d = _
    unfold Running.runWriter
    split <;> rfl
  | collect now => exact hsame rfl fun _ _ => rfl
  | mount uid gid now =>
    obtain ⟨_, hpending⟩ := hok
    rcases FSMeta.opened_d_get? h.filed hpending uid gid now with hload | ⟨hempty, _⟩
    · intro k f hf
      refine ⟨f.reloaded, ?_, ⟨rfl, rfl, (hrespects k f hf).symm, rfl, rfl⟩, rfl⟩
      exact (hload k).trans (congrArg _ hf)
    · -- the tree has a root
      obtain ⟨p, n, hroot⟩ := ht.wellFormed.root_dir
      obtain ⟨f, hf, _⟩ := (ht.shows p n _ true).mpr hroot
      rw [hempty] at hf
      cases hf

omit [DecidableEq H] in
/-- Only requests and a mount of nothing make files. -/
theorem PlainStep.domain {files files' : PlainFiles} {e : Event H} {r : Except PyError Answer}
    (h : PlainStep files (e, r) files') (hnot : ∀ q clock, e ≠ .request q clock)
    (hsome : ∃ k, files k ≠ none) {k : Nat} (hk : files k = none) : files' k = none := by
  have hupdate : ∀ {i : Nat} {c c' : Bytes}, files i = some c →
      Function.update files i (some c') k = none := by
    intro i c c' hi
    have hne : k ≠ i := fun e => by
      rw [← e, hk] at hi
      cases hi
    rw [Function.update_of_ne hne, hk]
  cases h with
  | request effect sizes => exact absurd rfl (hnot _ _)
  | setattr file number size => exact hupdate file
  | write file within => exact hupdate file
  | format empty =>
    obtain ⟨i, hi⟩ := hsome
    exact absurd (empty i) hi
  | _ => exact hk

/-! ## The view of a state -/

def Fs.nodes (content : H → Bytes) (s : Fs H) (k : Nat) : Option Node :=
  (s.inodes.d.get? k).map fun f => ⟨contents content f.data, f.stat⟩

section

variable {s : Fs H} {k : Nat}

omit [DecidableEq H] in
theorem Fs.nodes_some {n : Node} (h : s.nodes content k = some n) :
    ∃ f, s.inodes.d.get? k = some f ∧ contents content f.data = n.content ∧ f.stat = n.stat := by
  obtain ⟨f, hf, rfl⟩ := Option.map_eq_some_iff.mp h
  exact ⟨f, hf, rfl, rfl⟩

omit [DecidableEq H] in
theorem Fs.nodes_none (h : s.nodes content k = none) : s.inodes.d.get? k = none :=
  Option.map_eq_none_iff.mp h

omit [DecidableEq H] in
theorem Fs.nodes_files (T : DirTree Nat Bytes) :
    (⟨T, s.nodes content⟩ : UserView).files = s.files content := by
  funext k
  unfold UserView.files Fs.nodes Fs.files
  rw [Option.map_map]
  rfl

theorem WholeFile.shownIn {g : Globals H} {f : FileInode H} (h : WholeFile cfg P content g k f)
    {e : EntryAttributes} (he : e = f.attributes k) :
    (⟨contents content f.data, f.stat⟩ : Node).ShownIn e := by
  subst he
  exact ⟨rfl, rfl, rfl, rfl, h.length_contents.symm⟩

end

/-- The state shows the view. -/
structure ShowsView (cfg : Config) (P : Packages H) (content : H → Bytes) (C : Set Bytes) (v : Running H)
    (u : UserView) : Prop where
  whole : Whole cfg P content C v.writers v.fs
  tree : Treelike v.fs.inodes u.tree
  nodes : u.nodes = v.fs.nodes content

/-- The event is a step of the view. -/
def Event.Advances (cfg : Config) (P : Packages H) (content : H → Bytes) (C : Set Bytes) (v : Running H)
    (u : UserView) (e : Event H) : Prop :=
  ∃ u', UserStep u (e, (e.handle cfg P v).1) u' ∧ ShowsView cfg P content C (e.handle cfg P v).2 u'

/-- **An event whose tree is known is a step of the view.** -/
theorem ShowsView.step {u : UserView} (h : ShowsView cfg P content C v u) {e : Event H}
    (hagrees : e.Agrees cfg P content C v) {T' : DirTree Nat Bytes}
    (htree : e.onTree u.tree (e.handle cfg P v).1 T') (ht : Treelike (e.handle cfg P v).2.fs.inodes T')
    (hkept : ∀ k f f', v.fs.inodes.d.get? k = some f →
      (e.handle cfg P v).2.fs.inodes.d.get? k = some f' → f'.stat = e.leaves k f.stat)
    (hmade : ∀ k f', v.fs.inodes.d.get? k = none →
      (e.handle cfg P v).2.fs.inodes.d.get? k = some f' → e.made = some f'.stat)
    (hshown : ∀ o a, (e.handle cfg P v).1 = .ok o → o.shows = some a →
      ∃ f, (e.handle cfg P v).2.fs.inodes.d.get? a.stIno = some f ∧ a = f.attributes a.stIno) :
    e.Advances cfg P content C v u := by
  obtain ⟨T, nodes⟩ := u
  obtain ⟨hwhole, htreelike, rfl⟩ := h
  obtain ⟨hwhole', hplain⟩ := hagrees
  refine ⟨⟨T', (e.handle cfg P v).2.fs.nodes content⟩, ⟨?_, htree, ?_, ?_, ?_⟩, hwhole', ht, rfl⟩
  · rw [Fs.nodes_files, Fs.nodes_files]
    exact hplain
  · intro k n n' hn hn'
    obtain ⟨f, hf, _, hstat⟩ := Fs.nodes_some hn
    obtain ⟨f', hf', _, hstat'⟩ := Fs.nodes_some hn'
    rw [← hstat, ← hstat']
    exact hkept k f f' hf hf'
  · intro k n' hn hn'
    obtain ⟨f', hf', _, hstat'⟩ := Fs.nodes_some hn'
    rw [← hstat']
    exact hmade k f' (Fs.nodes_none hn) hf'
  · intro o a ho ha
    obtain ⟨f, hf, hattributes⟩ := hshown o a ho ha
    refine ⟨⟨contents content f.data, f.stat⟩, ?_, (hwhole'.file _ f hf).shownIn hattributes⟩
    exact Option.map_eq_some_iff.mpr ⟨f, hf, rfl⟩

omit [DecidableEq H] in
theorem answer_ok {α : Type} {answer : α → Answer} {r : Except PyError α} {o : Answer}
    (h : r.map answer = .ok o) : ∃ a, r = .ok a ∧ answer a = o := by
  cases r with
  | error e => cases h
  | ok a => exact ⟨a, rfl, Except.ok.inj h⟩

/-- A request is a step of the view. -/
theorem ShowsView.request {u : UserView} (h : ShowsView cfg P content C v u) {q : Request}
    {clock : Nat → Nat → Time} (hagrees : (Event.request q clock).Agrees cfg P content C v)
    (hrespects : (Event.request q clock).Respects v) :
    (Event.request q clock).Advances cfg P content C v u := by
  obtain ⟨hkernel, hempty⟩ := hrespects
  have hhandled := handle_run cfg clock q (v := v.toVfs) h.whole.selfNumbered
  obtain ⟨T', hT', htreelike⟩ := hhandled.onTree h.tree hkernel (h.whole.filed.keepsTree hempty)
  refine h.step hagrees ⟨_, rfl, hT', Treelike.sees h.tree clock q⟩ htreelike ?_ ?_ ?_
  · intro k f f' hf hf'
    rcases hhandled.kept.old k f hf with ⟨f₁, hf₁, hkept⟩ | ⟨hgone, _⟩
    · have heq : f₁ = f' := Option.some.inj (hf₁.symm.trans hf')
      exact heq ▸ hkept.stat
    · exact absurd (hgone.symm.trans hf') (by simp)
  · intro k f' hnone hf'
    exact hhandled.made hkernel hnone hf'
  · intro o a ho ha
    obtain ⟨r, hr, rfl⟩ := answer_ok ho
    exact hhandled.shown hr ha

/-- The attributes that `getattr` and `setattr` answer are those of the inode. -/
theorem Event.shown {e : Event H} (hnot : ∀ q clock, e ≠ .request q clock) {o : Answer}
    {a : EntryAttributes} (ho : (e.handle cfg P v).1 = .ok o) (ha : o.shows = some a) :
    ∃ f, (e.handle cfg P v).2.fs.inodes.d.get? a.stIno = some f ∧ a = f.attributes a.stIno := by
  cases e with
  | request q clock => exact absurd rfl (hnot q clock)
  | getattr inode =>
    obtain ⟨a', hr, rfl⟩ := answer_ok ho
    cases ha
    change ∃ f, (VeratyFS.getattr inode v.fs).2.inodes.d.get? a.stIno = some f ∧ _
    rw [getattr_state]
    cases hf : v.fs.inodes.d.get? inode with
    | none =>
      rw [getattr_missing hf] at hr
      cases hr
    | some f =>
      rw [getattr_run hf] at hr
      cases hr
      exact ⟨f, hf, rfl⟩
  | setattr inode fields env =>
    obtain ⟨a', hr, rfl⟩ := answer_ok ho
    cases ha
    change ∃ f, (VeratyFS.setattr cfg P env inode fields v.fs).2.inodes.d.get? a.stIno = some f ∧ _
    cases hf : v.fs.inodes.d.get? inode with
    | none =>
      unfold VeratyFS.setattr at hr
      rw [Py.run_bind_error (inodeAt_missing hf)] at hr
      cases hr
    | some f =>
      obtain ⟨s₁, f₁, _, hf₁, _, hrun⟩ := setattr_stages cfg P fields env hf
      rw [hrun] at hr ⊢
      cases hr
      exact ⟨_, Dict.get?_set_self _ _ _, rfl⟩
  | read fh offset length now =>
    obtain ⟨data, _, rfl⟩ := answer_ok ho
    cases ha
  | write fh offset buf now =>
    obtain ⟨n, _, rfl⟩ := answer_ok ho
    cases ha
  | flush =>
    change (VeratyFS.flush v.fs).1.map (fun _ => Answer.done) = .ok o at ho
    obtain ⟨_, _, rfl⟩ := answer_ok ho
    cases ha
  | writer i env =>
    cases ho
    cases ha
  | collect now =>
    cases ho
    cases ha
  | mount uid gid now =>
    cases ho
    cases ha

/-- Any other event keeps the tree. -/
theorem ShowsView.other {u : UserView} (h : ShowsView cfg P content C v u) {e : Event H}
    (hagrees : e.Agrees cfg P content C v) (hok : e.Permitted cfg P content C v) (hrespects : e.Respects v)
    (hnot : ∀ q clock, e ≠ .request q clock) :
    e.Advances cfg P content C v u := by
  have hevolves := Event.evolves h.whole h.tree hok hrespects hnot
  have hnone : ∀ k, v.fs.inodes.d.get? k = none → (e.handle cfg P v).2.fs.inodes.d.get? k = none := by
    intro k hk
    have hsome : ∃ k, v.fs.files content k ≠ none := by
      obtain ⟨p, n, hroot⟩ := h.tree.wellFormed.root_dir
      obtain ⟨f, hf, _⟩ := (h.tree.shows p n _ true).mpr hroot
      exact ⟨ROOT_INODE, by simp [Fs.files_some hf]⟩
    have hfiles := hagrees.2.domain hnot hsome (Fs.files_none hk)
    exact Option.map_eq_none_iff.mp hfiles
  have htree : e.onTree u.tree (e.handle cfg P v).1 u.tree := by
    cases e with
    | request q clock => exact absurd rfl (hnot q clock)
    | _ => rfl
  refine h.step hagrees htree ?_ ?_ ?_ fun o a => Event.shown hnot
  · refine h.tree.follows hagrees.1.selfNumbered ⟨hnone, fun k f hf => ?_⟩
    obtain ⟨f', hf', hsame, _⟩ := hevolves k f hf
    exact ⟨f', hf', hsame⟩
  · intro k f f' hf hf'
    obtain ⟨f₁, hf₁, _, hstat⟩ := hevolves k f hf
    have heq : f₁ = f' := Option.some.inj (hf₁.symm.trans hf')
    exact heq ▸ hstat
  · intro k f' hk hf'
    exact absurd ((hnone k hk).symm.trans hf') (by simp)

/-- A new file system shows a root directory. -/
theorem ShowsView.fresh (hC : ∀ c ∈ C, content (P.xxh3_64 c) = c) {cacheSize : Nat} (hpos : 0 < cacheSize)
    {ds mds : List (DataStore H)} (hn : Numbered ds) (hne : ds ≠ []) {ws : List (WriterAt H)}
    (hidle : ∀ w ∈ ws, w = .popleft) :
    ShowsView cfg P content C ⟨⟨.fresh cacheSize hpos ds mds, Dict.empty⟩, ws⟩ rootView := by
  refine ⟨(Whole.fresh hC hpos hn hne hidle).1, initFileSystem_treelike (fun _ => rfl) 0 0 0, ?_⟩
  funext k
  unfold rootView Fs.nodes
  dsimp only
  change _ = Option.map _ ((initFileSystem 0 0 0 (.new true)).d.get? k)
  rw [initFileSystem, FSMeta.setItem_d_get?]
  by_cases e : ROOT_INODE = k
  · subst e
    rw [if_pos rfl, Function.update_self]
    rfl
  · rw [if_neg e, Function.update_of_ne (Ne.symm e)]
    rfl

/-- A name of the tree is the name of a file. -/
theorem ShowsView.bound {u : UserView} (h : ShowsView cfg P content C v u) {p k : Nat} {n : Bytes}
    {d : Bool} (hb : u.tree.entries p n = some (k, d)) :
    ∃ node, u.nodes k = some node ∧ S_ISDIR node.stat.mode = d := by
  obtain ⟨f, hf, _, hkind⟩ := (h.tree.shows p n k d).mpr hb
  refine ⟨⟨contents content f.data, f.stat⟩, ?_, hkind⟩
  rw [h.nodes]
  exact Option.map_eq_some_iff.mpr ⟨f, hf, rfl⟩

end VeratyFS
