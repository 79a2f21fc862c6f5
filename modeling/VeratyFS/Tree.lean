import VeratyFS.Remount
import VeratyFS.Lib.DirTree

/-!
# The directory tree

The inode table holds a tree only by the parent, the name and the visibility of each inode.  Do the
handlers change it as a directory tree changes?

* `Visible`, `Shows` — the visible entries of a table are the bindings of a tree.
* `Request.onTree` — what a request does to a tree, and how it is answered.
* `Request.respects` — what the kernel has checked before it sends a request.
* `namespace_refines` — the requests refine the operations of the tree, as long as `rename` finds
  an empty target.
* `rename_orphans` — `rename` puts a directory in the place of one that has a file in it.
-/

set_option autoImplicit false
set_option maxRecDepth 1024

namespace VeratyFS

open Pylib

variable {H : Type}

/-! ## Tables and trees -/

/-- The inode `k` is a visible entry, and `d` tells whether it is a directory. -/
def Visible (t : FSMeta H) (p : Nat) (n : Bytes) (k : Nat) (d : Bool) : Prop :=
  ∃ f, t.d.get? k = some f ∧ f.named p n = true ∧ S_ISDIR f.mode = d

/-- The visible entries are the bindings of the tree. -/
def Shows (t : FSMeta H) (T : DirTree Nat Bytes) : Prop :=
  ∀ p n k d, Visible t p n k d ↔ T.entries p n = some (k, d)

/-- The inode `x` is `k` or a visible entry below it. -/
inductive Beneath (t : FSMeta H) (k : Nat) : Nat → Prop
  | self : Beneath t k k
  | child {p x : Nat} {n : Bytes} {d : Bool} (above : Beneath t k p) (entry : Visible t p n x d) :
      Beneath t k x

/-- The table shows a tree under the root; visible inodes have one link, hidden ones none. -/
structure Treelike (t : FSMeta H) (T : DirTree Nat Bytes) : Prop where
  self : SelfNumbered t
  shows : Shows t T
  wellFormed : T.WellFormed ROOT_INODE
  links : ∀ k f, t.d.get? k = some f → f.stNlink = if f.listOnDirLookup then 1 else 0

section

variable {t t' : FSMeta H} {T : DirTree Nat Bytes} {p k : Nat} {n : Bytes} {d : Bool}
  {f v : FileInode H}

theorem Visible.of_find (h : findEntry t p n = some (k, f)) : Visible t p n k (S_ISDIR f.mode) :=
  ⟨f, (findEntry_some h).1, (findEntry_some h).2, rfl⟩

theorem Shows.find (h : Shows t T) (hf : findEntry t p n = some (k, f)) :
    T.entries p n = some (k, S_ISDIR f.mode) := (h p n k _).mp (.of_find hf)

theorem Shows.find_none (h : Shows t T) (hf : findEntry t p n = none) : T.entries p n = none := by
  cases he : T.entries p n with
  | none => rfl
  | some e =>
    obtain ⟨g, hg, hnamed, _⟩ := (h p n e.1 e.2).mpr he
    rw [findEntry_none.mp hf e.1 g hg] at hnamed
    cases hnamed

/-- The one entry of a name is found. -/
theorem Shows.findEntry_of (h : Shows t T) (hv : Visible t p n k d) :
    ∃ f, findEntry t p n = some (k, f) ∧ S_ISDIR f.mode = d := by
  have he := (h p n k d).mp hv
  cases hf : findEntry t p n with
  | none =>
    rw [h.find_none hf] at he
    cases he
  | some e =>
    rw [h.find hf] at he
    cases he
    exact ⟨e.2, rfl, rfl⟩

theorem Shows.unique (h : Shows t T) : UniqueNames t := by
  intro k k' f f' p n hk hk' hf hf'
  have he := (h p n k _).mp ⟨f, hk, hf, rfl⟩
  rw [(h p n k' _).mp ⟨f', hk', hf', rfl⟩] at he
  exact (congrArg Prod.fst (Option.some.inj he)).symm

theorem Shows.beneath (h : Shows t T) (x : Nat) : Beneath t k x ↔ T.Below k x := by
  constructor
  · intro hb
    induction hb with
    | self => exact .self
    | child _ entry ih => exact .step ih ((h _ _ _ _).mp entry)
  · intro hb
    induction hb with
    | self => exact .self
    | step _ bound ih => exact .child ih ((h _ _ _ _).mpr bound)

theorem Shows.empty (h : Shows t T) (he : dirEntries t k = []) : T.Empty k := by
  intro n
  cases hb : T.entries k n with
  | none => rfl
  | some e =>
    obtain ⟨g, hg, hnamed, _⟩ := (h k n e.1 e.2).mpr hb
    obtain ⟨hparent, _, hvis⟩ := FileInode.named_iff.mp hnamed
    exact absurd ⟨hparent, hvis⟩ (dirEntries_eq_nil.mp he e.1 g hg)

theorem Shows.not_empty (h : Shows t T) (he : dirEntries t k ≠ []) : ¬ T.Empty k := by
  intro hempty
  refine he (dirEntries_eq_nil.mpr fun x g hg hx => ?_)
  have hb := (h k g.name x _).mp ⟨g, hg, FileInode.named_iff.mpr ⟨hx.1, rfl, hx.2⟩, rfl⟩
  rw [hempty g.name] at hb
  cases hb

/-- A visible inode is bound. -/
theorem Shows.bound (h : Shows t T) (hk : t.d.get? k = some f) (hv : f.listOnDirLookup = true) :
    T.entries f.parentInode f.name = some (k, S_ISDIR f.mode) :=
  (h _ _ _ _).mp ⟨f, hk, FileInode.named_iff.mpr ⟨rfl, rfl, hv⟩, rfl⟩

/-- A number without an inode is not bound. -/
theorem Shows.not_bound (h : Shows t T) (hk : t.d.get? k = none) : ¬ T.Bound k := by
  rintro ⟨p, n, d, hb⟩
  obtain ⟨f, hf, _⟩ := (h p n k d).mpr hb
  rw [hk] at hf
  cases hf

/-- The entries after one inode changed. -/
theorem visible_change (hd : ∀ x, t'.d.get? x = if k = x then some v else t.d.get? x) (q : Nat)
    (m : Bytes) (x : Nat) (e : Bool) :
    Visible t' q m x e ↔
      if k = x then v.named q m = true ∧ S_ISDIR v.mode = e else Visible t q m x e := by
  unfold Visible
  rw [hd]
  by_cases hx : k = x
  · rw [if_pos hx, if_pos hx]
    constructor
    · rintro ⟨f, hf, hn⟩
      cases hf
      exact hn
    · exact fun hn => ⟨v, rfl, hn⟩
  · rw [if_neg hx, if_neg hx]

/-- A change that keeps what is shown. -/
theorem Treelike.same (h : Treelike t T) (hself : SelfNumbered t')
    (hvis : ∀ q m x e, Visible t' q m x e ↔ Visible t q m x e)
    (hlinks : ∀ k f, t'.d.get? k = some f → f.stNlink = if f.listOnDirLookup then 1 else 0) :
    Treelike t' T :=
  ⟨hself, fun q m x e => (hvis q m x e).trans (h.shows q m x e), h.wellFormed, hlinks⟩

end

/-! ## Requests on trees -/

/-- The error number of a refusal. -/
def TreeErrno : TreeError → Errno
  | .notFound => .ENOENT
  | .isDirectory => .EISDIR
  | .notDirectory => .ENOTDIR
  | .notEmpty => .ENOTEMPTY

/-- The reply and the new tree of an operation: a refusal changes nothing. -/
def Answers (o : Except TreeError (DirTree Nat Bytes)) (T : DirTree Nat Bytes)
    (r : Except PyError Reply) (T' : DirTree Nat Bytes) : Prop :=
  match o with
  | .ok T₁ => r = .ok .done ∧ T' = T₁
  | .error e => r = .error (.fuseError (TreeErrno e)) ∧ T' = T

/-- A new node in a directory of the tree, under the number that the reply gives. -/
def Creates (T : DirTree Nat Bytes) (p : Nat) (n : Bytes) (d : Bool) (r : Except PyError Reply)
    (T' : DirTree Nat Bytes) : Prop :=
  (T.IsDir p ∧ ∃ e, r = .ok (.entry e) ∧ ¬ T.Bound e.stIno ∧ T' = T.add p n e.stIno d) ∨
    (¬ T.IsDir p ∧ (∃ e, r = .error e) ∧ T' = T)

/-- What a request does to a tree, and how it is answered. -/
def Request.onTree (T : DirTree Nat Bytes) (r : Except PyError Reply) (T' : DirTree Nat Bytes) :
    Request → Prop
  | .create a => Creates T a.parent a.name (S_ISDIR a.mode) r T'
  | .mkdir a => Creates T a.parent a.name (S_ISDIR a.mode) r T'
  | .mknod a _ => Creates T a.parent a.name (S_ISDIR a.mode) r T'
  | .symlink p n _ _ _ => Creates T p n false r T'
  | .unlink p n => Answers (T.unlink p n) T r T'
  | .rmdir p n => Answers (T.rmdir p n) T r T'
  | .rename pOld nOld pNew nNew flags =>
    if flags = 0 then Answers (T.rename pOld nOld pNew nNew) T r T'
    else r = .error (.fuseError .EINVAL) ∧ T' = T
  | _ => T' = T

/-! ## What the kernel guarantees -/

/-- The name is free, and the parent is not a visible file. -/
def FreeIn (t : FSMeta H) (p : Nat) (n : Bytes) : Prop :=
  (∀ k d, ¬ Visible t p n k d) ∧ ∀ q m, ¬ Visible t q m p false

/-- A name is created where it is free; a rename has a source, another target of the same kind if
there is one, and a directory that is not below the source.  `link` makes no tree. -/
def Request.respects (t : FSMeta H) : Request → Prop
  | .create a => FreeIn t a.parent a.name
  | .mkdir a => FreeIn t a.parent a.name
  | .mknod a _ => FreeIn t a.parent a.name
  | .symlink p n _ _ _ => FreeIn t p n
  | .link _ _ _ => False
  | .rename pOld nOld pNew nNew _ =>
    (pOld, nOld) ≠ (pNew, nNew) ∧ (∃ q m, Visible t q m pNew true) ∧
      ∃ k d, Visible t pOld nOld k d ∧ ¬ Beneath t k pNew ∧
        ∀ k' d', Visible t pNew nNew k' d' → d' = d
  | _ => True

/-- A target that `rename` replaces is empty, and what is deleted has a number that fits its key. -/
def Request.keepsTree (t : FSMeta H) : Request → Prop
  | .rmdir p n => ∀ k f, t.d.get? k = some f → f.named p n = true → S_ISDIR f.mode = true →
    dirEntries t k = [] → k < 256 ^ 64
  | .rename _ _ pNew nNew flags => flags = 0 → ∀ k f, t.d.get? k = some f →
    f.named pNew nNew = true → dirEntries t k = [] ∧ (0 ≤ f.lookupCount ∨ k < 256 ^ 64)
  | _ => True

/-! ## Steps -/

section

variable {t t' : FSMeta H} {T : DirTree Nat Bytes} {p k : Nat} {n : Bytes} {d : Bool}
  {f v : FileInode H}

/-- A count changes. -/
theorem Treelike.recount (h : Treelike t T) (hk : t.d.get? k = some f) (c : Int)
    (hd : ∀ x, t'.d.get? x = if k = x then some { f with lookupCount := c } else t.d.get? x) :
    Treelike t' T := by
  refine h.same (fun x g hg => ?_) (fun q m x e => ?_) fun x g hg => ?_
  · rw [hd] at hg
    split at hg
    · rename_i e
      cases hg
      exact (h.self k f hk).trans e
    · exact h.self x g hg
  · rw [visible_change hd]
    split
    · rename_i e
      subst e
      constructor
      · exact fun hn => ⟨f, hk, hn⟩
      · rintro ⟨g, hg, hn⟩
        rw [hk] at hg
        cases hg
        exact hn
    · exact Iff.rfl
  · rw [hd] at hg
    split at hg
    · cases hg
      exact h.links k f hk
    · exact h.links x g hg

theorem Treelike.lookedUp (h : Treelike t T) (hk : t.d.get? k = some f) :
    Treelike (t.update k f.lookedUp) T := h.recount hk _ (FSMeta.update_d_get?_of hk _)

theorem Treelike.congr (h : Treelike t T) (hd : ∀ x, t'.d.get? x = t.d.get? x) : Treelike t' T := by
  refine h.same (fun x g hg => h.self x g (hd x ▸ hg)) (fun q m x e => ?_) fun x g hg =>
    h.links x g (hd x ▸ hg)
  unfold Visible
  rw [hd]

theorem Treelike.commit (h : Treelike t T) : Treelike t.commit T :=
  h.congr fun x => by rw [FSMeta.commit_d]

/-- An inode is hidden, or gone. -/
theorem Treelike.remove (h : Treelike t T) (hb : T.entries p n = some (k, d)) (he : T.Empty k)
    (hself : SelfNumbered t')
    (hlinks : ∀ k f, t'.d.get? k = some f → f.stNlink = if f.listOnDirLookup then 1 else 0)
    (hvis : ∀ q m x e, Visible t' q m x e ↔ x ≠ k ∧ Visible t q m x e) :
    Treelike t' (T.remove p n) := by
  refine ⟨hself, fun q m x e => ?_, h.wellFormed.remove hb he, hlinks⟩
  rw [hvis, h.wellFormed.remove_iff hb, h.shows]

/-- The inode of a name is hidden. -/
theorem Treelike.hide (h : Treelike t T) (hb : T.entries p n = some (k, d))
    (he : T.Empty k) (hi : v.inode = k) (hv : v.listOnDirLookup = false) (hlinks : v.stNlink = 0)
    (hd : ∀ x, t'.d.get? x = if k = x then some v else t.d.get? x) :
    Treelike t' (T.remove p n) := by
  refine h.remove hb he (fun x g hg => ?_) (fun x g hg => ?_) fun q m x e => ?_
  · rw [hd] at hg
    split at hg
    · rename_i e
      cases hg
      exact hi.trans e
    · exact h.self x g hg
  · rw [hd] at hg
    split at hg
    · cases hg
      rw [hv, hlinks]
      rfl
    · exact h.links x g hg
  · rw [visible_change hd]
    split
    · rename_i hx
      constructor
      · rintro ⟨hn, _⟩
        exact absurd ((FileInode.named_iff.mp hn).2.2.symm.trans hv) Bool.false_ne_true.symm
      · exact fun hx' => absurd hx.symm hx'.1
    · rename_i hx
      exact ⟨fun hvis => ⟨Ne.symm hx, hvis⟩, And.right⟩

/-- The inode of a name is gone. -/
theorem Treelike.drop (h : Treelike t T) (hb : T.entries p n = some (k, d)) (he : T.Empty k)
    (hd : ∀ x, t'.d.get? x = if k = x then none else t.d.get? x) :
    Treelike t' (T.remove p n) := by
  have hold : ∀ x g, t'.d.get? x = some g → x ≠ k ∧ t.d.get? x = some g := by
    intro x g hg
    rw [hd] at hg
    split at hg
    · cases hg
    · rename_i hx
      exact ⟨Ne.symm hx, hg⟩
  refine h.remove hb he (fun x g hg => h.self x g (hold x g hg).2)
    (fun x g hg => h.links x g (hold x g hg).2) fun q m x e => ⟨?_, ?_⟩
  · rintro ⟨g, hg, hn⟩
    exact ⟨(hold x g hg).1, g, (hold x g hg).2, hn⟩
  · rintro ⟨hx, g, hg, hn⟩
    exact ⟨g, by rw [hd, if_neg (Ne.symm hx)]; exact hg, hn⟩

/-- A visible inode gets another name, which no other inode has any more. -/
theorem Treelike.move (h : Treelike t T) {p' : Nat} {n' : Bytes}
    (hm : T.Movable ROOT_INODE p n p' n' k d) (hk : t.d.get? k = some f)
    (hfree : T.entries p' n' = none) (hi : v.inode = k) (hv : v.listOnDirLookup = true)
    (hparent : v.parentInode = p') (hname : v.name = n') (hmode : v.mode = f.mode)
    (hlinks : v.stNlink = f.stNlink)
    (hd : ∀ x, t'.d.get? x = if k = x then some v else t.d.get? x) :
    Treelike t' (T.move p n p' n') := by
  obtain ⟨g, hg, hnamed, hdir⟩ := (h.shows p n k d).mpr hm.source
  rw [hk] at hg
  cases hg
  refine ⟨fun x g hg => ?_, fun q m x e => ?_, h.wellFormed.move hm, fun x g hg => ?_⟩
  · rw [hd] at hg
    split at hg
    · rename_i e
      cases hg
      exact hi.trans e
    · exact h.self x g hg
  · rw [visible_change hd, h.wellFormed.move_iff hm.source]
    split
    · rename_i hx
      subst hx
      constructor
      · rintro ⟨hn, hmode'⟩
        obtain ⟨hp, hn, _⟩ := FileInode.named_iff.mp hn
        exact .inl ⟨rfl, by rw [← hmode', hmode, hdir], hp.symm.trans hparent, hn.symm.trans hname⟩
      · rintro (⟨_, rfl, rfl, rfl⟩ | ⟨hne, _⟩)
        · exact ⟨FileInode.named_iff.mpr ⟨hparent, hname, hv⟩, by rw [hmode, hdir]⟩
        · exact absurd rfl hne
    · rename_i hx
      rw [h.shows]
      constructor
      · refine fun hb => .inr ⟨Ne.symm hx, ?_, hb⟩
        rintro ⟨rfl, rfl⟩
        rw [hfree] at hb
        cases hb
      · rintro (⟨rfl, _⟩ | ⟨_, _, hb⟩)
        · exact absurd rfl hx
        · exact hb
  · rw [hd] at hg
    split at hg
    · cases hg
      have hone := h.links k f hk
      rw [(FileInode.named_iff.mp hnamed).2.2] at hone
      rw [hlinks, hone, hv]
    · exact h.links x g hg

end

/-! ## Handlers -/

section

variable {s s' : Fs H} {T : DirTree Nat Bytes} {now : Time}

/-- A directory of the tree has an inode that is visible. -/
theorem Shows.dir {t : FSMeta H} (h : Shows t T) {p : Nat} (hp : T.IsDir p) :
    ∃ f, t.d.get? p = some f ∧ f.listOnDirLookup = true := by
  obtain ⟨q, m, hb⟩ := hp
  obtain ⟨f, hf, hn, _⟩ := (h q m p true).mpr hb
  exact ⟨f, hf, (FileInode.named_iff.mp hn).2.2⟩

/-- **`_create` adds a node**, or is refused in what is no directory of the tree. -/
theorem CreateRun.onTree {a : CreateArgs} {r : Except PyError EntryAttributes}
    (h : CreateRun s a now r s') (ht : Treelike s.inodes T)
    (hfree : FreeIn s.inodes a.parent a.name) :
    ∃ T', Creates T a.parent a.name (S_ISDIR a.mode) (r.map .entry) T' ∧ Treelike s'.inodes T' := by
  cases h with
  | orphan parent =>
    refine ⟨T, .inr ⟨fun hp => ?_, ⟨_, rfl⟩, rfl⟩, ht⟩
    obtain ⟨f, hf, _⟩ := ht.shows.dir hp
    rw [parent] at hf
    cases hf
  | unlinkedParent parent links =>
    refine ⟨T, .inr ⟨fun hp => ?_, ⟨_, rfl⟩, rfl⟩, ht⟩
    obtain ⟨f, hf, hv⟩ := ht.shows.dir hp
    rw [parent] at hf
    cases hf
    have hone := ht.links _ _ parent
    rw [links, hv] at hone
    exact absurd hone (by decide)
  | @done p ino parent links number =>
    have hv : p.listOnDirLookup = true := by
      cases hv : p.listOnDirLookup with
      | true => rfl
      | false =>
        have hone := ht.links _ _ parent
        rw [hv] at hone
        exact absurd hone links
    have hbound := ht.shows.bound parent hv
    have hdir : S_ISDIR p.mode = true := by
      cases hd : S_ISDIR p.mode with
      | true => rfl
      | false =>
        exact absurd ((ht.shows _ _ _ _).mpr (hd ▸ hbound)) (hfree.2 p.parentInode p.name)
    rw [hdir] at hbound
    have hnone : T.entries a.parent a.name = none := by
      cases hb : T.entries a.parent a.name with
      | none => rfl
      | some e => exact absurd ((ht.shows _ _ _ _).mpr hb) (hfree.1 e.1 e.2)
    have hnew := ht.shows.not_bound number.unused
    refine ⟨T.add a.parent a.name ino (S_ISDIR a.mode),
      .inl ⟨⟨_, _, hbound⟩, _, rfl, hnew, rfl⟩, Treelike.commit ⟨?_, fun q m x e => ?_, ?_, ?_⟩⟩
    · exact ht.self.moves ((TableMoves.refl _).set rfl)
    · rw [visible_change (s.inodes.setItem_d_get? ino · _), DirTree.add, DirTree.bind_entries]
      by_cases hx : ino = x
      · subst hx
        rw [if_pos rfl]
        constructor
        · rintro ⟨hn, hmode⟩
          obtain ⟨hp, hn, _⟩ := FileInode.named_iff.mp hn
          rw [if_pos ⟨hp.symm, hn.symm⟩, ← hmode]
          rfl
        · intro hb
          split at hb
          · rename_i hqm
            cases hb
            exact ⟨FileInode.named_iff.mpr ⟨hqm.1.symm, hqm.2.symm, rfl⟩, rfl⟩
          · exact absurd ⟨q, m, e, hb⟩ hnew
      · rw [if_neg hx, ht.shows]
        constructor
        · intro hb
          rw [if_neg]
          · exact hb
          · rintro ⟨rfl, rfl⟩
            rw [hnone] at hb
            cases hb
        · intro hb
          split at hb
          · cases hb
            exact absurd rfl hx
          · exact hb
    · exact ht.wellFormed.add ⟨_, _, hbound⟩ (ht.wellFormed.below ⟨_, _, _, hbound⟩) hnone hnew _
    · intro x g hg
      rw [FSMeta.setItem_d_get?] at hg
      split at hg
      · cases hg
        rfl
      · exact ht.links x g hg

theorem UnlinkRun.onTree {p : Nat} {n : Bytes} {r : Except PyError Unit} (h : UnlinkRun s p n r s')
    (ht : Treelike s.inodes T) :
    ∃ T', Answers (T.unlink p n) T (r.map fun _ => .done) T' ∧ Treelike s'.inodes T' := by
  unfold DirTree.unlink
  cases h with
  | missing found =>
    rw [ht.shows.find_none found]
    exact ⟨T, ⟨rfl, rfl⟩, ht⟩
  | directory found dir =>
    rw [ht.shows.find found, dir]
    exact ⟨T, ⟨rfl, rfl⟩, ht.lookedUp (findEntry_some found).1⟩
  | @done k f found file =>
    have hk := (findEntry_some found).1
    have hb := ht.shows.find found
    rw [file] at hb
    rw [hb]
    refine ⟨T.remove p n, ⟨rfl, rfl⟩, Treelike.commit ?_⟩
    have hone := ht.links k f hk
    rw [(FileInode.named_iff.mp (findEntry_some found).2).2.2] at hone
    refine (ht.lookedUp hk).hide (v := f.lookedUp.unlinked) hb (ht.wellFormed.file_empty hb)
      (ht.self k f hk) rfl ?_ (FSMeta.setItem_d_get? _ k · _)
    show f.stNlink - 1 = 0
    rw [hone]
    rfl

theorem RmdirRun.onTree {p : Nat} {n : Bytes} {r : Except PyError Unit} (h : RmdirRun s p n r s')
    (ht : Treelike s.inodes T) (hkeeps : (Request.rmdir p n).keepsTree s.inodes) :
    ∃ T', Answers (T.rmdir p n) T (r.map fun _ => .done) T' ∧ Treelike s'.inodes T' := by
  unfold DirTree.rmdir
  cases h with
  | missing found =>
    rw [ht.shows.find_none found]
    exact ⟨T, ⟨rfl, rfl⟩, ht⟩
  | file found file =>
    rw [ht.shows.find found, file]
    exact ⟨T, ⟨rfl, rfl⟩, ht.lookedUp (findEntry_some found).1⟩
  | notEmpty found dir children =>
    rw [ht.shows.find found, dir]
    dsimp only
    rw [if_neg (ht.shows.not_empty children)]
    exact ⟨T, ⟨rfl, rfl⟩, ht.lookedUp (findEntry_some found).1⟩
  | @done k f found dir empty =>
    obtain ⟨hk, hnamed⟩ := findEntry_some found
    have hb := ht.shows.find found
    have hempty := ht.shows.empty empty
    rw [hb, dir]
    dsimp only
    rw [if_pos hempty]
    refine ⟨T.remove p n, ⟨rfl, rfl⟩, Treelike.commit ((ht.lookedUp hk).drop hb hempty ?_)⟩
    have hget : (s.inodes.update k f.lookedUp).d.get? k = some f.lookedUp :=
      (FSMeta.update_d_get?_of hk _ k).trans (if_pos rfl)
    exact FSMeta.delItem_d_get?_of_fits (toBytes_isSome.mpr (hkeeps k f hk hnamed dir empty))
      ((Dict.contains_iff _).mpr ⟨_, hget⟩)

/-- The two inodes of a rename with a target: they differ, the target is empty, and the moved inode
is the source as the search left it. -/
theorem replaceTargets {pOld pNew k k' : Nat} {nOld nNew : Bytes} {f g m : FileInode H}
    (ht : Treelike s.inodes T) (hne : (pOld, nOld) ≠ (pNew, nNew))
    (hkeeps : (Request.rename pOld nOld pNew nNew 0).keepsTree s.inodes)
    (found : findEntry s.inodes pOld nOld = some (k, f))
    (target : findEntry (s.inodes.update k f.lookedUp) pNew nNew = some (k', g))
    (moved : ((s.inodes.update k f.lookedUp).update k' g.lookedUp).d.get? k = some m) :
    k ≠ k' ∧ s.inodes.d.get? k' = some g ∧ T.entries pNew nNew = some (k', S_ISDIR g.mode) ∧
      (∀ j e, T.entries pNew nNew = some (j, e) → T.Empty j) ∧ f.lookedUp = m ∧
      (0 ≤ g.lookupCount ∨ k' < 256 ^ 64) := by
  obtain ⟨hk, _⟩ := findEntry_some found
  obtain ⟨hk', hnamed⟩ := findEntry_some target
  have hb := ht.shows.find found
  have hbt := (ht.lookedUp hk).shows.find target
  have hkk : k ≠ k' := by
    rintro rfl
    obtain ⟨hp, hn⟩ := ht.wellFormed.once _ _ _ _ _ _ _ hb hbt
    exact hne (Prod.ext hp hn)
  have hg : s.inodes.d.get? k' = some g := by
    rw [FSMeta.update_d_get?_of hk, if_neg hkk] at hk'
    exact hk'
  obtain ⟨hchildren, hfits⟩ := hkeeps rfl k' g hg hnamed
  refine ⟨hkk, hg, hbt, fun j e hj => ?_, ?_, hfits⟩
  · rw [hbt] at hj
    cases hj
    exact ht.shows.empty hchildren
  · rw [FSMeta.update_d_get?_of hk', if_neg (Ne.symm hkk), FSMeta.update_d_get?_of hk, if_pos rfl]
      at moved
    exact Option.some.inj moved

/-- **`rename` moves a node**, when its target is empty. -/
theorem RenameRun.onTree {pOld pNew : Nat} {nOld nNew : Bytes} {flags : Nat}
    {r : Except PyError Unit} (h : RenameRun s pOld nOld pNew nNew flags r s')
    (ht : Treelike s.inodes T)
    (hrespects : (Request.rename pOld nOld pNew nNew flags).respects s.inodes)
    (hkeeps : (Request.rename pOld nOld pNew nNew flags).keepsTree s.inodes) :
    ∃ T', (Request.rename pOld nOld pNew nNew flags).onTree T (r.map fun _ => .done) T' ∧
      Treelike s'.inodes T' := by
  obtain ⟨hne, ⟨q, m, hnew⟩, k, d, hsource, habove, _⟩ := hrespects
  have hb := (ht.shows _ _ _ _).mp hsource
  have hdir := (ht.shows _ _ _ _).mp hnew
  have hmovable : (∀ j e, T.entries pNew nNew = some (j, e) → T.Empty j) →
      T.Movable ROOT_INODE pOld nOld pNew nNew k d := fun hempty =>
    ⟨hb, ⟨q, m, hdir⟩, ht.wellFormed.below ⟨q, m, true, hdir⟩,
      fun hbelow => habove ((ht.shows.beneath pNew).mpr hbelow), hempty⟩
  have hok : (∀ j e, T.entries pNew nNew = some (j, e) → T.Empty j) →
      Answers (T.rename pOld nOld pNew nNew) T (.ok .done) (T.move pOld nOld pNew nNew) := by
    intro hempty
    unfold DirTree.rename
    rw [hb]
    dsimp only
    rw [if_neg]
    · exact ⟨rfl, rfl⟩
    · rintro ⟨j, e, hj, hno⟩
      exact hno (hempty j e hj)
  cases h with
  | flags h =>
    refine ⟨T, ?_, ht⟩
    show if flags = 0 then _ else _
    rw [if_neg h]
    exact ⟨rfl, rfl⟩
  | missing h found =>
    rw [ht.shows.find_none found] at hb
    cases hb
  | @moved _ f h found free =>
    subst h
    obtain ⟨hk, hnamed⟩ := findEntry_some found
    rw [ht.shows.find found] at hb
    cases hb
    have hnone := (ht.lookedUp hk).shows.find_none free
    have hempty : ∀ j e, T.entries pNew nNew = some (j, e) → T.Empty j := by
      intro j e hj
      rw [hnone] at hj
      cases hj
    refine ⟨T.move pOld nOld pNew nNew, hok hempty, Treelike.commit ?_⟩
    have hget : (s.inodes.update k f.lookedUp).d.get? k = some f.lookedUp :=
      (FSMeta.update_d_get?_of hk _ k).trans (if_pos rfl)
    exact (ht.lookedUp hk).move (v := f.lookedUp.movedTo pNew nNew) (hmovable hempty) hget hnone
      (ht.self k f hk) (FileInode.named_iff.mp hnamed).2.2 rfl rfl rfl rfl
      (FSMeta.setItem_d_get? _ k · _)
  | @replaced _ k' f g mv dr h found target moved count deref =>
    subst h
    obtain ⟨hk, hnamed⟩ := findEntry_some found
    rw [ht.shows.find found] at hb
    cases hb
    obtain ⟨hkk, hg, hbt, hempty, rfl, _⟩ := replaceTargets ht hne hkeeps found target moved
    have ht₂ := (ht.lookedUp hk).lookedUp (findEntry_some target).1
    have hderef := FSMeta.setItem_d_get? ((s.inodes.update k f.lookedUp).update k' g.lookedUp) k k'
      (f.lookedUp.movedTo pNew nNew)
    rw [if_neg hkk, FSMeta.update_d_get?_of (findEntry_some target).1, if_pos rfl, deref] at hderef
    cases hderef
    have hone := ht.links k' g hg
    rw [(FileInode.named_iff.mp (findEntry_some target).2).2.2] at hone
    have ht₁ : Treelike (((s.inodes.update k f.lookedUp).update k' g.lookedUp).setItem k'
        g.lookedUp.hidden) (T.remove pNew nNew) := by
      refine ht₂.hide (v := g.lookedUp.hidden) hbt (hempty k' _ hbt) (ht.self k' g hg) rfl ?_
        (FSMeta.setItem_d_get? _ k' · _)
      show g.stNlink - 1 = 0
      rw [hone]
      rfl
    refine ⟨T.move pOld nOld pNew nNew, hok hempty, Treelike.commit ?_⟩
    rw [← DirTree.move_remove (fun h => hne (Prod.ext h.1 h.2))]
    refine ht₁.move (f := f.lookedUp) (v := f.lookedUp.movedTo pNew nNew)
      (ht.wellFormed.movable_remove (hmovable hempty) hbt hkk) ?_ ?_ (ht.self k f hk)
      (FileInode.named_iff.mp hnamed).2.2 rfl rfl rfl rfl fun x => ?_
    · rw [FSMeta.setItem_d_get?, if_neg (Ne.symm hkk)]
      exact moved
    · rw [DirTree.remove, DirTree.bind_entries, if_pos ⟨rfl, rfl⟩]
    · rw [FSMeta.setItem_d_get?, FSMeta.setItem_d_get?, FSMeta.setItem_d_get?]
      by_cases hx : k = x
      · rw [if_pos hx, if_neg (hx ▸ Ne.symm hkk), if_pos hx]
      · rw [if_neg hx, if_neg hx]
  | @deleted _ k' f g mv h found target moved count =>
    subst h
    obtain ⟨hk, hnamed⟩ := findEntry_some found
    rw [ht.shows.find found] at hb
    cases hb
    obtain ⟨hkk, hg, hbt, hempty, rfl, hfits⟩ := replaceTargets ht hne hkeeps found target moved
    have ht₂ := (ht.lookedUp hk).lookedUp (findEntry_some target).1
    have hfit : (toBytes 64 k').isSome := by
      refine toBytes_isSome.mpr (hfits.resolve_left fun hc => count ?_)
      show 0 < g.lookupCount + 1
      omega
    have hcontains : ∀ t : FSMeta H, t.d.get? k' = some g.lookedUp → ∀ x,
        (t.delItem k').2.d.get? x = if k' = x then none else t.d.get? x := fun t hget =>
      FSMeta.delItem_d_get?_of_fits hfit ((Dict.contains_iff _).mpr ⟨_, hget⟩)
    have hget : ((s.inodes.update k f.lookedUp).update k' g.lookedUp).d.get? k' =
        some g.lookedUp :=
      (FSMeta.update_d_get?_of (findEntry_some target).1 _ k').trans (if_pos rfl)
    have ht₁ := ht₂.drop hbt (hempty k' _ hbt) (hcontains _ hget)
    refine ⟨T.move pOld nOld pNew nNew, hok hempty, Treelike.commit ?_⟩
    rw [← DirTree.move_remove (fun h => hne (Prod.ext h.1 h.2))]
    refine ht₁.move (f := f.lookedUp) (v := f.lookedUp.movedTo pNew nNew)
      (ht.wellFormed.movable_remove (hmovable hempty) hbt hkk) ?_ ?_ (ht.self k f hk)
      (FileInode.named_iff.mp hnamed).2.2 rfl rfl rfl rfl fun x => ?_
    · rw [hcontains _ hget, if_neg (Ne.symm hkk)]
      exact moved
    · rw [DirTree.remove, DirTree.bind_entries, if_pos ⟨rfl, rfl⟩]
    · rw [hcontains _ ((FSMeta.setItem_d_get? _ k k' _).trans ((if_neg hkk).trans hget)),
        hcontains _ hget, FSMeta.setItem_d_get?]
      by_cases hx : k = x
      · rw [if_pos hx, if_neg (hx ▸ Ne.symm hkk), if_pos hx]
      · rw [if_neg hx, if_neg hx]

/-- Only counts change, and hidden inodes go. -/
theorem Treelike.unseen {t t' : FSMeta H} (h : Treelike t T)
    (hold : ∀ x f', t'.d.get? x = some f' →
      ∃ f c, t.d.get? x = some f ∧ f' = { f with lookupCount := c })
    (hkeep : ∀ x f, t.d.get? x = some f → f.listOnDirLookup = true →
      ∃ c, t'.d.get? x = some { f with lookupCount := c }) : Treelike t' T := by
  refine h.same (fun x g hg => ?_) (fun q m x e => ⟨?_, ?_⟩) fun x g hg => ?_
  · obtain ⟨f, c, hf, rfl⟩ := hold x g hg
    exact h.self x f hf
  · rintro ⟨g, hg, hn, hmode⟩
    obtain ⟨f, c, hf, rfl⟩ := hold x g hg
    exact ⟨f, hf, hn, hmode⟩
  · rintro ⟨f, hf, hn, hmode⟩
    obtain ⟨c, hc⟩ := hkeep x f hf (FileInode.named_iff.mp hn).2.2
    exact ⟨_, hc, hn, hmode⟩
  · obtain ⟨f, c, hf, rfl⟩ := hold x g hg
    exact h.links x f hf

theorem ForgetRounds.treelike {l : List (Nat × Nat)} (h : ForgetRounds l s s')
    (ht : Treelike s.inodes T) : Treelike s'.inodes T := by
  refine ht.unseen (fun x f' hf' => ?_) fun x f hf hv => ?_
  · cases hf : s.inodes.d.get? x with
    | none =>
      rw [(h.inode x).1 hf] at hf'
      cases hf'
    | some f =>
      rcases (h.inode x).2 f hf with ⟨c, hc⟩ | ⟨hgone, _⟩
      · rw [hf'] at hc
        exact ⟨f, c, rfl, Option.some.inj hc⟩
      · rw [hf'] at hgone
        cases hgone
  · rcases (h.inode x).2 f hf with hc | ⟨_, _, _, hlinks⟩
    · exact hc
    · have hone := ht.links x f hf
      rw [hv, if_pos rfl] at hone
      omega

/-- An inode without links is not shown. -/
theorem Treelike.delItem {t : FSMeta H} (h : Treelike t T) {k : Nat} {f : FileInode H}
    (hk : t.d.get? k = some f) (links : f.stNlink = 0) : Treelike (t.delItem k).2 T := by
  refine h.unseen (fun x f' hf' => ?_) fun x g hg hv => ?_
  · rcases t.delItem_d_get? k x with e | ⟨_, e⟩
    · exact ⟨f', f'.lookupCount, e.symm.trans hf', rfl⟩
    · rw [hf'] at e
      cases e
  · rcases t.delItem_d_get? k x with e | ⟨rfl, _⟩
    · exact ⟨g.lookupCount, e.trans hg⟩
    · have hone := h.links k g hg
      rw [hk] at hg
      cases hg
      rw [links, hv, if_pos rfl] at hone
      omega

end

variable [DecidableEq H] {cfg : Config} {v : Vfs H} {now : Time} {T : DirTree Nat Bytes}

omit [DecidableEq H] in
/-- **Every request does to the tree what it should**, and is answered so. -/
theorem Handled.onTree {q : Request} {r : Except PyError Reply} {s : Fs H} (h : Handled v now q r s)
    (ht : Treelike v.fs.inodes T) (hrespects : q.respects v.fs.inodes)
    (hkeeps : q.keepsTree v.fs.inodes) : ∃ T', q.onTree T r T' ∧ Treelike s.inodes T' := by
  cases h with
  | lookup run =>
    cases run with
    | missing found => exact ⟨T, rfl, ht⟩
    | done found => exact ⟨T, rfl, ht.lookedUp (findEntry_some found).1⟩
  | create run => exact run.onTree ht hrespects
  | mkdir run => exact run.onTree ht hrespects
  | mknod run => exact run.onTree ht hrespects
  | @symlink p n target uid gid _ _ run =>
    have hlink : S_ISDIR (symlinkArgs p n target uid gid).mode = false := by
      show S_ISDIR 41471 = false
      decide
    have hcreate : ∀ {r s'}, CreateRun v.fs (symlinkArgs p n target uid gid) now r s' →
        ∃ T', Creates T p n false (r.map .entry) T' ∧ Treelike s'.inodes T' :=
      fun hc => hlink ▸ hc.onTree ht hrespects
    cases run with
    | failed created => exact hcreate created
    | @done _ ino parent links number =>
      obtain ⟨T', hcreates, ht'⟩ := hcreate (.done parent links number)
      refine ⟨T', hcreates, Treelike.commit ?_⟩
      refine ht'.recount (k := ino) ?_ _ (FSMeta.setItem_d_get? _ ino · _)
      rw [Fs.withInodes_inodes, FSMeta.commit_d, FSMeta.setItem_d_get?, if_pos rfl]
  | link run => exact absurd hrespects id
  | unlink run => exact run.onTree ht
  | rmdir run => exact run.onTree ht hkeeps
  | rename run => exact run.onTree ht hrespects hkeeps
  | readdir run => exact ⟨T, rfl, ht⟩
  | forget rounds => exact ⟨T, rfl, (rounds.treelike ht).commit⟩
  | openFile => exact ⟨T, rfl, ht⟩
  | release run =>
    cases run with
    | kept same =>
      rcases same with rfl | rfl
      · exact ⟨T, rfl, ht⟩
      · exact ⟨T, rfl, ht.commit⟩
    | removed last found links gone =>
      rcases gone with rfl | rfl
      · exact ⟨T, rfl, ht.delItem found links⟩
      · exact ⟨T, rfl, (ht.delItem found links).commit⟩

/-! ## Runs -/

/-- The requests of a run with their replies. -/
def Session.trace (cfg : Config) : Session H → List Call → List (Request × Except PyError Reply)
  | _, [] => []
  | s, c :: cs => (c.request, (s.outcome cfg c).1) :: Session.trace cfg (s.exec cfg c) cs

/-- The trees that requests and their replies lead through. -/
def trees : System (DirTree Nat Bytes) (Request × Except PyError Reply) where
  step T e T' := e.1.onTree T e.2 T'

/-- **The namespace refines a directory tree** in every run of requests that the kernel may send and
in which `rename` finds an empty target. -/
theorem namespace_refines {s s' : Session H} {cs : List Call} (hstart : Treelike s.inodes T)
    (hrun : ((sessions cfg).meeting fun s c => c.request.respects s.inodes ∧
      c.request.keepsTree s.inodes).Run s cs s') :
    ∃ T', trees.Run T (s.trace cfg cs) T' ∧ Shows s'.inodes T' ∧ UniqueNames s'.inodes ∧
      ∀ p n k d, Visible s'.inodes p n k d →
        Beneath s'.inodes ROOT_INODE p ∧ ∃ q m, Visible s'.inodes q m p true := by
  have hmain : ∃ T', trees.Run T (s.trace cfg cs) T' ∧ Treelike s'.inodes T' := by
    induction hrun generalizing T with
    | nil s => exact ⟨T, .nil T, hstart⟩
    | @cons s s₁ s₂ c cs hstep _ ih =>
      obtain ⟨rfl, hrespects, hkeeps⟩ := hstep
      obtain ⟨T₁, hone, ht₁⟩ :=
        (handle_run cfg c.clock c.request hstart.self).onTree hstart hrespects hkeeps
      obtain ⟨T₂, hrest, ht₂⟩ := ih ht₁
      exact ⟨T₂, .cons hone hrest, ht₂⟩
  obtain ⟨T', htrees, ht'⟩ := hmain
  refine ⟨T', htrees, ht'.shows, ht'.shows.unique, fun p n k d hv => ?_⟩
  have hb := (ht'.shows p n k d).mp hv
  obtain ⟨q, m, hq⟩ := ht'.wellFormed.parent p n k d hb
  exact ⟨(ht'.shows.beneath p).mpr (ht'.wellFormed.reached p n k d hb), q, m,
    (ht'.shows q m p true).mpr hq⟩

/-! ## Sample runs -/

/-- The tree of a new file system: the root, which lists itself. -/
def rootTree : DirTree Nat Bytes :=
  ⟨fun p n => if p = ROOT_INODE ∧ n = [46, 46] then some (ROOT_INODE, true) else none⟩

theorem rootTree_some {p k : Nat} {n : Bytes} {d : Bool} :
    rootTree.entries p n = some (k, d) ↔
      p = ROOT_INODE ∧ n = [46, 46] ∧ k = ROOT_INODE ∧ d = true := by
  show (if p = ROOT_INODE ∧ n = [46, 46] then some (ROOT_INODE, true) else none) = some (k, d) ↔ _
  split
  · rename_i h
    constructor
    · intro hb
      cases hb
      exact ⟨h.1, h.2, rfl, rfl⟩
    · rintro ⟨_, _, rfl, rfl⟩
      rfl
  · rename_i h
    constructor
    · intro hb
      cases hb
    · rintro ⟨hp, hn, _⟩
      exact absurd ⟨hp, hn⟩ h

omit [DecidableEq H] in
/-- **A new file system shows its root.** -/
theorem initFileSystem_treelike {t : FSMeta H} (empty : ∀ k, t.d.get? k = none) (uid gid : Nat)
    (now : Time) : Treelike (initFileSystem uid gid now t) rootTree := by
  have hone : ∀ x g, (initFileSystem uid gid now t).d.get? x = some g →
      x = ROOT_INODE ∧ g.inode = ROOT_INODE ∧ g.listOnDirLookup = true ∧ g.stNlink = 1 := by
    intro x g hg
    unfold initFileSystem at hg
    rw [FSMeta.setItem_d_get?] at hg
    split at hg
    · rename_i e
      cases hg
      exact ⟨e.symm, rfl, rfl, rfl⟩
    · rw [empty] at hg
      cases hg
  refine ⟨fun x g hg => ?_, fun q m x e => ?_, ⟨⟨ROOT_INODE, [46, 46], rfl⟩, ?_, ?_, ?_⟩,
    fun x g hg => ?_⟩
  · obtain ⟨hx, hi, _⟩ := hone x g hg
    exact hi.trans hx.symm
  · unfold initFileSystem
    rw [visible_change (t.setItem_d_get? ROOT_INODE · _), rootTree_some]
    split
    · rename_i hx
      rw [FileInode.named_iff]
      constructor
      · rintro ⟨⟨hp, hn, _⟩, hmode⟩
        refine ⟨hp.symm, hn.symm, hx.symm, ?_⟩
        rw [← hmode]
        show S_ISDIR 16877 = true
        decide
      · rintro ⟨rfl, rfl, _, rfl⟩
        refine ⟨⟨rfl, rfl, rfl⟩, ?_⟩
        show S_ISDIR 16877 = true
        decide
    · rename_i hx
      constructor
      · rintro ⟨g, hg, _⟩
        rw [empty] at hg
        cases hg
      · exact fun h => absurd h.2.2.1.symm hx
  · intro p n p' n' i d d' hb hb'
    obtain ⟨hp, hn, _⟩ := rootTree_some.mp hb
    obtain ⟨hp', hn', _⟩ := rootTree_some.mp hb'
    exact ⟨hp.trans hp'.symm, hn.trans hn'.symm⟩
  · intro p n i d hb
    obtain ⟨rfl, _⟩ := rootTree_some.mp hb
    exact ⟨ROOT_INODE, [46, 46], rfl⟩
  · intro p n i d hb
    obtain ⟨rfl, _⟩ := rootTree_some.mp hb
    exact .self
  · obtain ⟨_, _, hv, hlinks⟩ := hone x g hg
    rw [hlinks, hv]
    rfl

section

variable {t : FSMeta H} {p k : Nat} {n : Bytes} {d : Bool}

omit [DecidableEq H] in
theorem not_named_of_entries (hfree : ∀ e ∈ t.d.entries, e.2.named p n = false) {f : FileInode H}
    (hf : t.d.get? k = some f) : ¬ f.named p n = true := by
  intro hn
  have hno := hfree (k, f) ((Dict.mem_entries_iff _).mpr hf)
  exact Bool.false_ne_true (hno.symm.trans hn)

omit [DecidableEq H] in
theorem FreeIn.of_entries (hfree : ∀ e ∈ t.d.entries, e.2.named p n = false)
    (hdir : ∀ e ∈ t.d.entries, e.1 = p → S_ISDIR e.2.mode = true) : FreeIn t p n := by
  constructor
  · rintro k d ⟨f, hf, hn, _⟩
    exact not_named_of_entries hfree hf hn
  · rintro q m ⟨f, hf, _, hmode⟩
    have hyes := hdir (p, f) ((Dict.mem_entries_iff _).mpr hf) rfl
    exact Bool.false_ne_true (hmode.symm.trans hyes)

omit [DecidableEq H] in
theorem Visible.of_entries
    (h : ∃ e ∈ t.d.entries, e.1 = k ∧ e.2.named p n = true ∧ S_ISDIR e.2.mode = d) :
    Visible t p n k d := by
  obtain ⟨⟨k', f⟩, hmem, rfl, hn, hd⟩ := h
  exact ⟨f, (Dict.mem_entries_iff _).mp hmem, hn, hd⟩

omit [DecidableEq H] in
/-- A list of inodes that contains what is visible in them contains all that is below them. -/
theorem Beneath.mem {l : List Nat} {x : Nat}
    (hclosed : ∀ e ∈ t.d.entries, e.2.listOnDirLookup = true → e.2.parentInode ∈ l → e.1 ∈ l)
    (hk : k ∈ l) (h : Beneath t k x) : x ∈ l := by
  induction h with
  | self => exact hk
  | child _ entry ih =>
    obtain ⟨f, hf, hn, _⟩ := entry
    obtain ⟨hp, _, hv⟩ := FileInode.named_iff.mp hn
    exact hclosed (_, f) ((Dict.mem_entries_iff _).mpr hf) hv (hp ▸ ih)

end

theorem sampleSession_treelike : Treelike sampleSession.inodes rootTree :=
  initFileSystem_treelike (fun _ => rfl) 0 0 0

/-- A file in a directory, moved out of it. -/
def movedCalls : List Call :=
  [⟨.mkdir ⟨1, [97], 16877, 0, 0, 0, none⟩, fun _ _ => 0⟩,
    ⟨.create ⟨2, [98], 33188, 0, 0, 0, none⟩, fun _ _ => 0⟩,
    ⟨.rename 2 [98] 1 [99] 0, fun _ _ => 0⟩]

theorem namespace_refines_sample :
    let s := System.after (Session.exec .shipped) sampleSession movedCalls
    ∃ T', trees.Run rootTree (sampleSession.trace .shipped movedCalls) T' ∧ Shows s.inodes T' ∧
      UniqueNames s.inodes ∧ ∀ p n k d, Visible s.inodes p n k d →
        Beneath s.inodes ROOT_INODE p ∧ ∃ q m, Visible s.inodes q m p true := by
  have hrun : ((sessions .shipped).meeting fun s c => c.request.respects s.inodes ∧
      c.request.keepsTree s.inodes).Run sampleSession movedCalls
      (System.after (Session.exec .shipped) sampleSession movedCalls) := by
    refine .cons ⟨rfl, ?_, trivial⟩ (.cons ⟨rfl, ?_, trivial⟩ (.cons ⟨rfl, ⟨by decide, ?_⟩, ?_⟩ (.nil _)))
    · exact .of_entries (by decide) (by decide)
    · exact .of_entries (by decide) (by decide)
    · refine ⟨⟨1, [46, 46], .of_entries (by decide)⟩, 3, false,
        .of_entries (by decide), fun hb => ?_, ?_⟩
      · have hmem := hb.mem (l := [3]) (by decide) (by decide)
        revert hmem
        decide
      · rintro k' d' ⟨f, hf, hn, _⟩
        exact absurd hn (not_named_of_entries (by decide) hf)
    · rintro _ k f hf hn
      exact absurd hn (not_named_of_entries (by decide) hf)
  exact namespace_refines sampleSession_treelike hrun

/-- A directory with a file in it, replaced by another directory. -/
def replacedCalls : List Call :=
  [⟨.mkdir ⟨1, [100], 16877, 0, 0, 0, none⟩, fun _ _ => 0⟩,
    ⟨.create ⟨2, [102], 33188, 0, 0, 0, none⟩, fun _ _ => 0⟩,
    ⟨.mkdir ⟨1, [101], 16877, 0, 0, 0, none⟩, fun _ _ => 0⟩,
    ⟨.rename 1 [101] 1 [100] 0, fun _ _ => 0⟩]

/-- The file of the replaced directory stays visible under a directory that is not. -/
theorem rename_orphans :
    ¬ ∀ (s s' : Session Bytes) (cs : List Call), Treelike s.inodes rootTree →
      ((sessions .shipped).meeting fun s c => c.request.respects s.inodes).Run s cs s' →
      ∀ p n k d, Visible s'.inodes p n k d → Beneath s'.inodes ROOT_INODE p := by
  intro h
  have hrun : ((sessions .shipped).meeting fun s c => c.request.respects s.inodes).Run
      sampleSession replacedCalls
      (System.after (Session.exec .shipped) sampleSession replacedCalls) := by
    refine .cons ⟨rfl, ?_⟩ (.cons ⟨rfl, ?_⟩ (.cons ⟨rfl, ?_⟩ (.cons ⟨rfl, by decide, ?_⟩ (.nil _))))
    · exact .of_entries (by decide) (by decide)
    · exact .of_entries (by decide) (by decide)
    · exact .of_entries (by decide) (by decide)
    · refine ⟨⟨1, [46, 46], .of_entries (by decide)⟩, 4, true,
        .of_entries (by decide), fun hb => ?_, ?_⟩
      · have hmem := hb.mem (l := [4]) (by decide) (by decide)
        revert hmem
        decide
      · rintro k' d' ⟨f, hf, _, rfl⟩
        have hall : ∀ e ∈ (System.after (Session.exec .shipped) sampleSession
            (replacedCalls.take 3)).inodes.d.entries,
            e.2.named 1 [100] = true → S_ISDIR e.2.mode = true := by
          decide
        exact hall (k', f) ((Dict.mem_entries_iff _).mpr hf) ‹_›
  have hbelow := h _ _ _ sampleSession_treelike hrun 2 [102] 3 false
    (.of_entries (by decide))
  have hmem := hbelow.mem (l := [1, 4]) (by decide) (by decide)
  revert hmem
  decide

end VeratyFS
