import VeratyFS.Accounting
import VeratyFS.OffsetCache
import VeratyFS.FreshNumbers
import VeratyFS.CleanUps

/-!
# Inodes that nothing uses

Is an inode that has no visible name, is closed and is forgotten out of the table, after one
`update_index(add=False)` for each of its blocks?

* `Fate` — what a call does to one inode and calls for it; `Handled.fate`, `CleanedAt.fate`.
* `Audit` — a session, with the blocks of each inode and the calls made for it since it was created.
* `FileCall.reclaims` — what a call hides is in use, what it discards has no block, and what it cleans
  up still has its parent.
* `unlinked_reclaimed` — runs of such calls.
* `orphan_kept` — a directory goes before the hidden file in it.
-/

set_option autoImplicit false
set_option maxRecDepth 1024

namespace VeratyFS

open Pylib

variable {H : Type}

/-! ## What a call does to an inode -/

/-- The number, the visibility and the links are the same. -/
structure FileInode.SameLinks (f f' : FileInode H) : Prop where
  inode : f'.inode = f.inode
  visible : f'.listOnDirLookup = f.listOnDirLookup
  links : f'.stNlink = f.stNlink

theorem FileInode.SameLinks.refl (f : FileInode H) : f.SameLinks f := ⟨rfl, rfl, rfl⟩

theorem FileInode.SameLinks.trans {f f' f'' : FileInode H} (h : f.SameLinks f') (h' : f'.SameLinks f'') :
    f.SameLinks f'' :=
  ⟨h'.inode.trans h.inode, h'.visible.trans h.visible, h'.links.trans h.links⟩

/-- The inodes of two tables, before and after a call: what is hidden had the property `hides`, and
the last argument is what `update_index(add=False)` got for the inode. -/
inductive Fate (hides : Prop) : Option (FileInode H) → Option (FileInode H) → List H → Prop
  | absent : Fate hides none none []
  | made {f : FileInode H} (visible : f.listOnDirLookup = true) (links : f.stNlink = 1) :
      Fate hides none (some f) []
  | kept {f f' : FileInode H} (same : f.SameLinks f') : Fate hides (some f) (some f') []
  | hidden {f f' : FileInode H} (hid : hides) (visible : f.listOnDirLookup = true)
      (invisible : f'.listOnDirLookup = false) (links : f'.stNlink = f.stNlink - 1) :
      Fate hides (some f) (some f') []
  | discarded {f : FileInode H} (empty : f.data = []) : Fate hides (some f) none []
  | reclaimed {f : FileInode H} : Fate hides (some f) none (f.data.map FileBlock.hash)

/-- All inodes have the same links in both tables. -/
def FSMeta.SameLinks (t t' : FSMeta H) : Prop :=
  ∀ k, Option.Rel FileInode.SameLinks (t.d.get? k) (t'.d.get? k)

namespace FSMeta.SameLinks

variable {t t' t'' : FSMeta H} {k : Nat} {f v : FileInode H}

theorem refl (t : FSMeta H) : t.SameLinks t := fun k => by
  cases t.d.get? k with
  | none => exact .none
  | some f => exact .some (.refl f)

theorem trans (h : t.SameLinks t') (h' : t'.SameLinks t'') : t.SameLinks t'' := fun k => by
  have hk := h k
  have hk' := h' k
  revert hk hk'
  generalize t.d.get? k = o, t'.d.get? k = o', t''.d.get? k = o''
  intro hk hk'
  cases hk with
  | none =>
    cases hk'
    exact .none
  | some h₁ =>
    cases hk' with
    | some h₂ => exact .some (h₁.trans h₂)

/-- One inode changes. -/
theorem change (hk : t.d.get? k = some f) (hv : f.SameLinks v)
    (hd : ∀ x, t'.d.get? x = if k = x then some v else t.d.get? x) : t.SameLinks t' := fun x => by
  rw [hd]
  split
  · rename_i h
    rw [← h, hk]
    exact .some hv
  · exact refl t x

theorem lookedUp (hk : t.d.get? k = some f) : t.SameLinks (t.update k f.lookedUp) :=
  change (v := f.lookedUp) hk ⟨rfl, rfl, rfl⟩ (FSMeta.update_d_get?_of hk _)

theorem set (h : t.SameLinks t') (hk : t'.d.get? k = some f) (hv : f.SameLinks v) :
    t.SameLinks (t'.setItem k v) := h.trans (change hk hv fun x => t'.setItem_d_get? k x v)

theorem commit (h : t.SameLinks t') : t.SameLinks t'.commit := fun k => by
  rw [FSMeta.commit_d]
  exact h k

theorem fate (h : t.SameLinks t') (hides : Prop) (k : Nat) :
    Fate hides (t.d.get? k) (t'.d.get? k) [] := by
  have hk := h k
  revert hk
  generalize t.d.get? k = o, t'.d.get? k = o'
  intro hk
  cases hk with
  | none => exact .absent
  | some h => exact .kept h

/-- An inode of the second table, in the first. -/
theorem left (h : t.SameLinks t') (hk : t'.d.get? k = some v) :
    ∃ f, t.d.get? k = some f ∧ f.SameLinks v := by
  have hrel := h k
  rw [hk] at hrel
  cases hf : t.d.get? k with
  | none =>
    rw [hf] at hrel
    cases hrel
  | some f =>
    rw [hf] at hrel
    cases hrel with
    | some h => exact ⟨f, rfl, h⟩

end FSMeta.SameLinks

namespace Fate

variable {t t₁ t' : FSMeta H} {k x : Nat} {v d : FileInode H} {hides : Prop}

/-- A new inode is visible, with one link. -/
theorem add (hnew : t.d.get? x = none) (hd : t'.d.get? k = if x = k then some v else t.d.get? k)
    (hvis : v.listOnDirLookup = true) (hlinks : v.stNlink = 1) :
    Fate hides (t.d.get? k) (t'.d.get? k) [] := by
  rw [hd]
  split
  · rename_i h
    rw [← h, hnew]
    exact .made hvis hlinks
  · exact (FSMeta.SameLinks.refl t).fate _ k

/-- A visible inode is hidden. -/
theorem hide (h : t.SameLinks t₁) (hx : t₁.d.get? x = some d) (hhides : x = k → hides)
    (hvis : d.listOnDirLookup = true) (hv : v.listOnDirLookup = false) (hlinks : v.stNlink = d.stNlink - 1) :
    Fate hides (t.d.get? k) ((t₁.setItem x v).commit.d.get? k) [] := by
  rw [FSMeta.commit_d, FSMeta.setItem_d_get?]
  split
  · rename_i hk
    obtain ⟨f, hf, hsame⟩ := h.left hx
    rw [← hk, hf]
    exact .hidden (hhides hk) (hsame.visible.symm.trans hvis) hv (hsame.links ▸ hlinks)
  · exact h.fate _ k

/-- An inode without blocks is taken out. -/
theorem discard (h : t.SameLinks t₁) (hempty : ∀ f, t.d.get? x = some f → f.data = []) :
    Fate hides (t.d.get? k) ((t₁.delItem x).2.commit.d.get? k) [] := by
  rw [FSMeta.commit_d]
  rcases t₁.delItem_d_get? x k with hsame | ⟨rfl, hgone⟩
  · rw [hsame]
    exact h.fate _ k
  · rw [hgone]
    cases hx : t.d.get? x with
    | none => exact .absent
    | some f => exact .discarded (hempty f hx)

end Fate

/-! ## Requests -/

/-- The inode that a rename replaces, as its second search finds it. -/
def FSMeta.replaced (t : FSMeta H) (pOld : Nat) (nOld : Bytes) (pNew : Nat) (nNew : Bytes) (flags : Nat) :
    Option (Nat × FileInode H) :=
  if flags ≠ 0 then none
  else (findEntry t pOld nOld).bind fun e => findEntry (t.update e.1 e.2.lookedUp) pNew nNew

namespace Request

/-- The inode that a request hides. -/
def hides (t : FSMeta H) : Request → Option Nat
  | .unlink p n => (findEntry t p n).bind fun e => if S_ISDIR e.2.mode then none else some e.1
  | .rename pOld nOld pNew nNew flags => (t.replaced pOld nOld pNew nNew flags).bind fun e =>
    if 0 ≤ e.2.lookupCount then some e.1 else none
  | _ => none

/-- The inode that a request takes out of the table at once. -/
def discards (t : FSMeta H) : Request → Option (FileInode H)
  | .rmdir p n => (findEntry t p n).bind fun e =>
    if S_ISDIR e.2.mode ∧ dirEntries t e.1 = [] then some e.2 else none
  | .rename pOld nOld pNew nNew flags => (t.replaced pOld nOld pNew nNew flags).bind fun e =>
    if 0 ≤ e.2.lookupCount then none else some e.2
  | _ => none

def isLink : Request → Bool
  | .link _ _ _ => true
  | _ => false

def isCleanUp : Request → Bool
  | .forget _ => true
  | .release _ => true
  | _ => false

end Request

section

variable {s s' : Fs H} {now : Time}

theorem CreateRun.fate {a : CreateArgs} {r : Except PyError EntryAttributes} (h : CreateRun s a now r s')
    (hides : Prop) (k : Nat) : Fate hides (s.inodes.d.get? k) (s'.inodes.d.get? k) [] := by
  cases h with
  | orphan parent => exact (FSMeta.SameLinks.refl _).fate _ k
  | unlinkedParent parent links => exact (FSMeta.SameLinks.refl _).fate _ k
  | @done _ ino parent links number =>
    refine .add (v := a.newInode ino now) number.unused ?_ rfl rfl
    rw [Fs.withInodes_inodes, FSMeta.commit_d, FSMeta.setItem_d_get?]

/-- A found target of a rename is in the table before the searches, with the same data. -/
theorem findEntry_data {t : FSMeta H} {x k p : Nat} {n : Bytes} {f g : FileInode H}
    (hx : t.d.get? x = some g) (h : findEntry (t.update x g.lookedUp) p n = some (k, f)) :
    ∀ f₀, t.d.get? k = some f₀ → f₀.data = f.data := by
  intro f₀ hf₀
  have hget := (findEntry_some h).1
  rw [FSMeta.update_d_get?_of hx] at hget
  split at hget
  · rename_i e
    rw [e, hf₀] at hx
    cases hx
    cases hget
    rfl
  · rw [hf₀] at hget
    cases hget
    rfl

theorem RenameRun.fate {pOld pNew flags : Nat} {nOld nNew : Bytes} {r : Except PyError Unit}
    (h : RenameRun s pOld nOld pNew nNew flags r s')
    (hempty : ∀ f, (Request.rename pOld nOld pNew nNew flags).discards s.inodes = some f → f.data = [])
    (k : Nat) : Fate ((Request.rename pOld nOld pNew nNew flags).hides s.inodes = some k)
      (s.inodes.d.get? k) (s'.inodes.d.get? k) [] := by
  cases h with
  | flags h => exact (FSMeta.SameLinks.refl _).fate _ k
  | missing h found => exact (FSMeta.SameLinks.refl _).fate _ k
  | @moved x f h found free =>
    have hx := (findEntry_some found).1
    exact ((FSMeta.SameLinks.lookedUp hx).set (FSMeta.get?_update_self hx) (v := f.lookedUp.movedTo pNew nNew)
      ⟨rfl, rfl, rfl⟩).commit.fate _ k
  | @replaced x x' f g m d h found target moved count deref =>
    have hx := (findEntry_some found).1
    have hx' := (findEntry_some target).1
    have hsecond := (FSMeta.SameLinks.lookedUp hx').set moved (v := m.movedTo pNew nNew) ⟨rfl, rfl, rfl⟩
    obtain ⟨g', hg', hsame⟩ := hsecond.left deref
    rw [hx'] at hg'
    cases hg'
    have hvis : d.listOnDirLookup = true :=
      hsame.visible.trans (FileInode.named_iff.mp (findEntry_some target).2).2.2
    refine .hide ((FSMeta.SameLinks.lookedUp hx).trans hsecond) deref (fun hk => hk ▸ ?_) hvis rfl rfl
    have hcount : 0 < g.lookupCount + 1 := count
    unfold Request.hides FSMeta.replaced
    dsimp only
    rw [if_neg (not_not_intro h), found, Option.bind_some, target, Option.bind_some,
      if_pos (by omega : 0 ≤ g.lookupCount)]
  | @deleted x x' f g m h found target moved count =>
    have hx := (findEntry_some found).1
    have hsecond := (FSMeta.SameLinks.lookedUp (findEntry_some target).1).set moved
      (v := m.movedTo pNew nNew) ⟨rfl, rfl, rfl⟩
    refine .discard ((FSMeta.SameLinks.lookedUp hx).trans hsecond) fun f₀ hf₀ => ?_
    have hcount : ¬ 0 < g.lookupCount + 1 := count
    refine (findEntry_data hx target f₀ hf₀).trans (hempty g ?_)
    unfold Request.discards FSMeta.replaced
    dsimp only
    rw [if_neg (not_not_intro h), found, Option.bind_some, target, Option.bind_some,
      if_neg (by omega : ¬ 0 ≤ g.lookupCount)]

end

/-- **What a request does to an inode** when it cleans nothing up: what it discards has no blocks. -/
theorem Handled.fate {v : Vfs H} {t : Fs H} {now : Time} {q : Request} {r : Except PyError Reply}
    (h : Handled v now q r t) (hlink : q.isLink = false) (hclean : q.isCleanUp = false)
    (hempty : ∀ f, q.discards v.fs.inodes = some f → f.data = []) (k : Nat) :
    Fate (q.hides v.fs.inodes = some k) (v.fs.inodes.d.get? k) (t.inodes.d.get? k) [] := by
  have hsame := (FSMeta.SameLinks.refl v.fs.inodes).fate (q.hides v.fs.inodes = some k) k
  have hlookup : ∀ {p : Nat} {n : Bytes} {x : Nat} {f : FileInode H},
      findEntry v.fs.inodes p n = some (x, f) →
      v.fs.inodes.SameLinks (v.fs.inodes.update x f.lookedUp) :=
    fun found => .lookedUp (findEntry_some found).1
  cases h with
  | lookup run =>
    cases run with
    | missing found => exact hsame
    | done found => exact (hlookup found).fate _ k
  | create run => exact run.fate _ k
  | mkdir run => exact run.fate _ k
  | mknod run => exact run.fate _ k
  | @symlink p n target uid gid _ _ run =>
    cases run with
    | failed created => exact hsame
    | @done _ ino parent links number =>
      refine .add (v := ((symlinkArgs p n target uid gid).newInode ino now).lookedUp) number.unused ?_
        rfl rfl
      rw [Fs.withInodes_inodes, FSMeta.commit_d, FSMeta.setItem_d_get?, FSMeta.commit_d,
        FSMeta.setItem_d_get?]
      split <;> rfl
  | link run => cases hlink
  | unlink run =>
    cases run with
    | missing found => exact hsame
    | directory found dir => exact (hlookup found).fate _ k
    | @done x f found file =>
      have hvis := (FileInode.named_iff.mp (findEntry_some found).2).2.2
      refine .hide (hlookup found) (FSMeta.get?_update_self (findEntry_some found).1)
        (fun hk => hk ▸ ?_) hvis rfl rfl
      unfold Request.hides
      dsimp only
      rw [found, Option.bind_some, if_neg (Bool.eq_false_iff.mp file)]
  | rmdir run =>
    cases run with
    | missing found => exact hsame
    | file found file => exact (hlookup found).fate _ k
    | notEmpty found dir children => exact (hlookup found).fate _ k
    | @done x f found dir empty =>
      refine .discard (hlookup found) fun g hg => ?_
      rw [(findEntry_some found).1] at hg
      cases hg
      refine hempty f ?_
      unfold Request.discards
      dsimp only
      rw [found, Option.bind_some, if_pos ⟨dir, empty⟩]
  | rename run => exact run.fate hempty k
  | readdir run => exact hsame
  | forget rounds => cases hclean
  | openFile => exact hsame
  | release run => cases hclean

/-- A clean-up reclaims. -/
theorem CleanedAt.fate {s : Fs H} {o' : Observed (Fs H) (Nat × H)} {k : Nat} {hit : Prop}
    (h : CleanedAt k hit ⟨s, []⟩ o') (hides : Prop) :
    Fate hides (s.inodes.d.get? k) (o'.state.inodes.d.get? k) (callsOf k o'.seen) := by
  cases hk : s.inodes.d.get? k with
  | none =>
    obtain ⟨hgone, hseen⟩ := h.absent hk
    rw [hgone, hseen]
    exact .absent
  | some f =>
    by_cases hyes : hit ∧ k ≠ ROOT_INODE ∧ f.stNlink ≤ 0
    · obtain ⟨hgone, hseen⟩ := h.gone f hk hyes
      rw [hgone, hseen]
      exact .reclaimed
    · obtain ⟨⟨c, hc⟩, hseen⟩ := h.kept f hk hyes
      rw [hc, hseen]
      exact .kept ⟨rfl, rfl, rfl⟩

/-! ## Audits -/

/-- A session, and for each number the blocks of the inode that has it, or had it last, and what
`update_index(add=False)` got for that inode since it was created. -/
structure Audit (H : Type) where
  session : Session H
  blocks : Nat → List (FileBlock H)
  calls : Nat → List H

namespace Audit

/-- The inodes as they are, before any call. -/
def start (s : Session H) : Audit H where
  session := s
  blocks k := ((s.inodes.d.get? k).map FileInode.data).getD []
  calls _ := []

/-- The session after a call in which `update_index(add=False)` was called as in `l`. -/
def next (a : Audit H) (s : Session H) (l : List (Nat × H)) : Audit H where
  session := s
  blocks k := ((s.inodes.d.get? k).map FileInode.data).getD (a.blocks k)
  calls k := (if (a.session.inodes.d.get? k).isNone && (s.inodes.d.get? k).isSome then []
    else a.calls k) ++ callsOf k l

end Audit

/-- A request, or a write. -/
inductive FileCall where
  | request (c : Call)
  | write (fh offset : Nat) (buf : Bytes) (now : Time)

variable [DecidableEq H] {cfg : Config} {P : Packages H}

/-- The calls of `update_index(add=False)` that a request makes. -/
def Call.drops (cfg : Config) (c : Call) (v : Vfs H) : List (Nat × H) :=
  match c.request with
  | .forget l => (CleanUp.forget cfg c.clock l ⟨v.fs, []⟩).2.seen
  | .release fh => (CleanUp.release cfg (c.clock 0) fh ⟨v, []⟩).2.seen
  | _ => []

def Session.write (cfg : Config) (P : Packages H) (fh offset : Nat) (buf : Bytes) (now : Time)
    (s : Session H) : Session H :=
  { s with vfs := { s.vfs with fs := (VeratyFS.write cfg P fh offset buf now s.vfs.fs).2 } }

def Audit.exec (cfg : Config) (P : Packages H) : FileCall → Audit H → Audit H
  | .request c, a => a.next (a.session.exec cfg c) (c.drops cfg a.session.vfs)
  | .write fh offset buf now, a => a.next (a.session.write cfg P fh offset buf now) []

def audits (cfg : Config) (P : Packages H) : System (Audit H) FileCall := .ofFun (Audit.exec cfg P)

/-! ## What is asked of the calls -/

omit [DecidableEq H] in
/-- The inode is not the root, and the kernel refers to it or has it open. -/
def Session.holds (s : Session H) (k : Nat) : Bool :=
  decide (k ≠ ROOT_INODE) && (decide (0 < s.references k) || decide (0 < s.vfs.openCount k))

omit [DecidableEq H] in
/-- An inode without links that the request cleans up has its parent, and its number fits. -/
def Request.cleansUp (s : Session H) : Request → Bool
  | .forget l => s.inodes.reclaims [] (l.map Prod.fst)
  | .release fh => decide (s.vfs.openCount fh ≠ 1) || s.inodes.reclaimsOne [] fh
  | _ => true

omit [DecidableEq H] in
/-- The request makes no link, hides only what is in use, and discards only what has no blocks. -/
def Request.reclaims (s : Session H) (q : Request) : Bool :=
  !q.isLink && (q.hides s.inodes).all s.holds && (q.discards s.inodes).all (fun f => f.data.isEmpty) &&
    q.cleansUp s

omit [DecidableEq H] in
def FileCall.reclaims (s : Session H) : FileCall → Bool
  | .request c => c.request.reclaims s
  | .write _ _ _ _ => true

/-! ## The invariant -/

/-- A visible inode has one link, a hidden one none and is in use; an inode of the table has had no
call, and one that is gone had one for each of its blocks. -/
structure Reclaiming (a : Audit H) : Prop where
  numbered : SelfNumbered a.session.inodes
  globals : Placed a.session.vfs.fs.globals ∧ Remembered a.session.vfs.fs.globals
  links : ∀ k f, a.session.inodes.d.get? k = some f → f.stNlink = if f.listOnDirLookup then 1 else 0
  held : ∀ k f, a.session.inodes.d.get? k = some f → f.listOnDirLookup = false →
    k ≠ ROOT_INODE ∧ a.session.uses k
  quiet : ∀ k f, a.session.inodes.d.get? k = some f → a.calls k = [] ∧ a.blocks k = f.data
  settled : ∀ k, a.session.inodes.d.get? k = none → a.calls k = (a.blocks k).map FileBlock.hash

section

variable {a : Audit H} {s' : Session H} {l : List (Nat × H)}

omit [DecidableEq H] in
/-- A hidden inode was hidden before, or the call hid it. -/
theorem Fate.hidden_cases {o : Option (FileInode H)} {f' : FileInode H} {cs : List H} {hides : Prop}
    (h : Fate hides o (some f') cs) (hf' : f'.listOnDirLookup = false) :
    hides ∨ ∃ f, o = some f ∧ f.listOnDirLookup = false := by
  cases h with
  | made visible links =>
    rw [visible] at hf'
    cases hf'
  | kept same => exact .inr ⟨_, rfl, same.visible.symm.trans hf'⟩
  | hidden hid visible invisible links => exact .inl hid

/-- **One call** that does such things to the inodes, and leaves what it hides in use. -/
theorem Reclaiming.next (hides : Nat → Prop) (h : Reclaiming a) (hnum : SelfNumbered s'.inodes)
    (hglobals : Placed s'.vfs.fs.globals ∧ Remembered s'.vfs.fs.globals)
    (hfate : ∀ k, Fate (hides k) (a.session.inodes.d.get? k) (s'.inodes.d.get? k) (callsOf k l))
    (hheld : ∀ k, hides k ∨ (∃ f, a.session.inodes.d.get? k = some f ∧ f.listOnDirLookup = false) →
      ∀ f', s'.inodes.d.get? k = some f' → k ≠ ROOT_INODE ∧ s'.uses k) :
    Reclaiming (a.next s' l) := by
  refine ⟨hnum, hglobals, fun k f' hf' => ?_, fun k f' hf' hhid => ?_, fun k f' hf' => ?_, fun k hk => ?_⟩
  · have hf := hfate k
    rw [show s'.inodes.d.get? k = some f' from hf'] at hf
    generalize hk : a.session.inodes.d.get? k = o, callsOf k l = cs at hf
    cases hf with
    | made visible links =>
      rw [visible]
      exact links
    | kept same =>
      rw [same.links, same.visible]
      exact h.links k _ hk
    | hidden hid visible invisible links =>
      have hone := h.links k _ hk
      rw [visible] at hone
      rw [invisible, links, hone]
      rfl
  · have hf := hfate k
    rw [show s'.inodes.d.get? k = some f' from hf'] at hf
    exact hheld k (hf.hidden_cases hhid) f' hf'
  · have hf := hfate k
    have hf'' : s'.inodes.d.get? k = some f' := hf'
    unfold Audit.next
    dsimp only
    rw [hf''] at hf ⊢
    refine ⟨?_, rfl⟩
    generalize hk : a.session.inodes.d.get? k = o, callsOf k l = cs at hf ⊢
    cases hf with
    | made visible links => rfl
    | kept same => exact (List.append_nil _).trans (h.quiet k _ hk).1
    | hidden hid visible invisible links => exact (List.append_nil _).trans (h.quiet k _ hk).1
  · have hf := hfate k
    have hk' : s'.inodes.d.get? k = none := hk
    unfold Audit.next
    dsimp only
    rw [hk'] at hf ⊢
    generalize hk₀ : a.session.inodes.d.get? k = o, callsOf k l = cs at hf ⊢
    cases hf with
    | absent => exact (List.append_nil _).trans (h.settled k hk₀)
    | discarded empty =>
      obtain ⟨hcalls, hblocks⟩ := h.quiet k _ hk₀
      refine (List.append_nil _).trans (hcalls.trans ?_)
      show [] = (a.blocks k).map FileBlock.hash
      rw [hblocks, empty]
      rfl
    | reclaimed =>
      obtain ⟨hcalls, hblocks⟩ := h.quiet k _ hk₀
      show a.calls k ++ _ = (a.blocks k).map FileBlock.hash
      rw [hcalls, hblocks, List.nil_append]

end

/-! ## Steps -/

section

variable {s : Session H} {c : Call} {k : Nat}

theorem Call.drops_of_not_cleanUp (hclean : c.request.isCleanUp = false) (v : Vfs H) :
    c.drops cfg v = [] := by
  unfold Call.drops
  cases hq : c.request with
  | forget l =>
    rw [hq] at hclean
    cases hclean
  | release fh =>
    rw [hq] at hclean
    cases hclean
  | _ => rfl

/-- Only `release` closes. -/
theorem Session.openCount_le (hclean : c.request.isCleanUp = false) (k : Nat) :
    s.vfs.openCount k ≤ (s.exec cfg c).vfs.openCount k := by
  have hanswer : ∀ {α : Type} {reply : α → Reply} {m : Op H α},
      c.request.handle cfg c.clock s.vfs = Vfs.answer reply m s.vfs →
      s.vfs.openCount k ≤ (s.exec cfg c).vfs.openCount k := by
    intro α reply m hm
    unfold Session.exec Session.outcome
    rw [hm, answer_run]
    exact Int.le_refl _
  cases hq : c.request with
  | create a =>
    unfold Session.exec Session.outcome
    rw [hq, Request.handle, bind_reply]
    show s.vfs.openCount k ≤ (Vfs.create a (c.clock 0 0) s.vfs).2.openCount k
    rw [(Vfs.create_run a (c.clock 0 0) s.vfs).2.2 k]
    split
    · split <;> omega
    · omega
  | openFile inode =>
    unfold Session.exec Session.outcome
    rw [hq]
    show s.vfs.openCount k ≤ (Vfs.addOpen inode 1 s.vfs).2.openCount k
    rw [addOpen_openCount]
    split
    · rename_i h
      rw [h]
      omega
    · exact Int.le_refl _
  | forget l =>
    rw [hq] at hclean
    cases hclean
  | release fh =>
    rw [hq] at hclean
    cases hclean
  | _ => exact hanswer (by rw [hq]; rfl)

omit [DecidableEq H] in
/-- Only `forget` gives references back. -/
theorem Request.returns_eq_zero {q : Request} (hforget : ∀ l, q = .forget l → k ∉ l.map Prod.fst) :
    q.returns k = 0 := by
  cases q with
  | forget l =>
    have hno := hforget l rfl
    show (l.map fun n => if n.1 = k then (n.2 : Int) else 0).sum = 0
    clear hforget
    induction l with
    | nil => rfl
    | cons n l ih =>
      rw [List.map_cons, List.mem_cons, not_or] at hno
      rw [List.map_cons, List.sum_cons, if_neg (Ne.symm hno.1), ih hno.2, Int.add_zero]
  | _ => rfl

theorem Session.references_le (hforget : ∀ l, c.request = .forget l → k ∉ l.map Prod.fst) :
    s.references k ≤ (s.exec cfg c).references k := by
  show s.references k ≤ s.references k +
    (if c.request.grants (s.outcome cfg c).1 = some k then 1 else 0) - c.request.returns k
  rw [Request.returns_eq_zero hforget]
  split <;> omega

/-- What is in use stays in use, as long as nothing is closed and it is not forgotten. -/
theorem Session.uses_exec (huses : s.uses k)
    (hopen : s.vfs.openCount k ≤ (s.exec cfg c).vfs.openCount k)
    (hforget : ∀ l, c.request = .forget l → k ∉ l.map Prod.fst) : (s.exec cfg c).uses k := by
  have hrefs : s.references k ≤ (s.exec cfg c).references k := Session.references_le hforget
  exact huses.imp (fun h => Int.lt_of_lt_of_le h hrefs) fun h => Int.lt_of_lt_of_le h hopen

end

section

variable {a : Audit H} {c : Call}

omit [DecidableEq H] in
theorem Request.reclaims_spec {s : Session H} {q : Request} (h : q.reclaims s = true) :
    q.isLink = false ∧ (∀ k, q.hides s.inodes = some k → k ≠ ROOT_INODE ∧ s.uses k) ∧
      (∀ f, q.discards s.inodes = some f → f.data = []) ∧ q.cleansUp s = true := by
  unfold Request.reclaims at h
  rw [Bool.and_eq_true, Bool.and_eq_true, Bool.and_eq_true, Bool.not_eq_true', Option.all_eq_true,
    Option.all_eq_true] at h
  obtain ⟨⟨⟨hlink, hhides⟩, hempty⟩, hclean⟩ := h
  refine ⟨hlink, fun k hk => ?_, fun f hf => List.isEmpty_iff.mp (hempty f hf), hclean⟩
  have hholds := hhides k hk
  unfold Session.holds at hholds
  rw [Bool.and_eq_true, Bool.or_eq_true, decide_eq_true_eq, decide_eq_true_eq,
    decide_eq_true_eq] at hholds
  exact hholds

/-- A request that is no clean-up. -/
theorem Reclaiming.request (h : Reclaiming a) (hclean : c.request.isCleanUp = false)
    (hok : c.request.reclaims a.session = true) : Reclaiming (a.exec cfg P (.request c)) := by
  obtain ⟨hlink, hhides, hempty, _⟩ := Request.reclaims_spec hok
  have hhandled := handle_run cfg c.clock c.request h.numbered
  have hforget : ∀ k l, c.request = .forget l → k ∉ l.map Prod.fst := by
    intro k l hq
    rw [hq] at hclean
    cases hclean
  have hglobals : (a.session.exec cfg c).vfs.fs.globals = a.session.vfs.fs.globals := by
    refine hhandled.globals (fun l hq => ?_) fun fh hq => ?_ <;>
      · rw [hq] at hclean
        cases hclean
  have hdrops : c.drops cfg a.session.vfs = [] := Call.drops_of_not_cleanUp hclean _
  refine h.next (fun k => c.request.hides a.session.inodes = some k)
    (Session.selfNumbered_exec h.numbered c) (hglobals ▸ h.globals) (fun k => ?_) fun k hk f' hf' => ?_
  · rw [hdrops]
    exact hhandled.fate hlink hclean hempty k
  · have hused : k ≠ ROOT_INODE ∧ a.session.uses k := by
      rcases hk with hk | ⟨f, hf, hhid⟩
      · exact hhides k hk
      · exact h.held k f hf hhid
    exact ⟨hused.1, Session.uses_exec hused.2 (Session.openCount_le hclean k) (hforget k)⟩

/-- A hidden inode has no link. -/
theorem Reclaiming.hidden_links (h : Reclaiming a) {k : Nat} {f : FileInode H}
    (hf : a.session.inodes.d.get? k = some f) (hhid : f.listOnDirLookup = false) :
    k ≠ ROOT_INODE ∧ f.stNlink ≤ 0 := by
  have hlinks := h.links k f hf
  rw [hhid] at hlinks
  exact ⟨(h.held k f hf hhid).1, Int.le_of_eq hlinks⟩

/-- **`forget`**. -/
theorem Reclaiming.forget (h : Reclaiming a) {l : List (Nat × Nat)} (hq : c.request = .forget l)
    (hok : c.request.reclaims a.session = true) : Reclaiming (a.exec cfg P (.request c)) := by
  have hall := (Request.reclaims_spec hok).2.2.2
  rw [hq] at hall
  obtain ⟨hclean, hglobals⟩ := forget_cleans cfg c.clock (o := ⟨a.session.vfs.fs, []⟩) h.numbered
    h.globals hall
  have hstate : (CleanUp.forget cfg c.clock l ⟨a.session.vfs.fs, []⟩).2.state =
      (a.session.exec cfg c).vfs.fs := by
    unfold Session.exec Session.outcome
    rw [hq, Request.handle, answer_run]
    exact (forget_cleanUp_follows cfg c.clock l ⟨a.session.vfs.fs, []⟩).2
  have hdrops : c.drops cfg a.session.vfs = (CleanUp.forget cfg c.clock l ⟨a.session.vfs.fs, []⟩).2.seen := by
    unfold Call.drops
    rw [hq]
  refine h.next (fun _ => False) (Session.selfNumbered_exec h.numbered c) (hstate ▸ hglobals)
    (fun k => ?_) fun k hk f' hf' => ?_
  · have hfate := (hclean k).fate False
    rw [hstate, ← hdrops] at hfate
    exact hfate
  · obtain ⟨f, hf, hhid⟩ := hk.resolve_left id
    obtain ⟨hroot, hlinks⟩ := h.hidden_links hf hhid
    have hnot : k ∉ l.map Prod.fst := by
      intro hmem
      have hgone := ((hclean k).gone f hf ⟨hmem, hroot, hlinks⟩).1
      rw [hstate] at hgone
      cases hgone.symm.trans hf'
    have hopen : (a.session.exec cfg c).vfs.openCount k = a.session.vfs.openCount k :=
      (Session.exec_answer (m := VeratyFS.forget cfg c.clock l) (by rw [hq]; rfl) k).1
    refine ⟨hroot, Session.uses_exec (h.held k f hf hhid).2 (Int.le_of_eq hopen.symm) fun l' hl' => ?_⟩
    rw [hq] at hl'
    cases hl'
    exact hnot

/-- **`release`**. -/
theorem Reclaiming.release (h : Reclaiming a) {fh : Nat} (hq : c.request = .release fh)
    (hok : c.request.reclaims a.session = true) : Reclaiming (a.exec cfg P (.request c)) := by
  have hone : a.session.vfs.openCount fh = 1 → a.session.inodes.reclaimsOne [] fh = true := by
    intro hlast
    have hcleans := (Request.reclaims_spec hok).2.2.2
    rw [hq] at hcleans
    unfold Request.cleansUp at hcleans
    dsimp only at hcleans
    rwa [decide_eq_false (not_not_intro hlast), Bool.false_or] at hcleans
  have hlinks : ∀ f, a.session.inodes.d.get? fh = some f →
      0 ≤ f.stNlink ∧ (fh = ROOT_INODE → f.stNlink ≠ 0) := by
    intro f hf
    have hcount := h.links fh f hf
    cases hv : f.listOnDirLookup with
    | true =>
      rw [hv] at hcount
      rw [hcount]
      exact ⟨by decide, fun _ => by decide⟩
    | false =>
      rw [hv] at hcount
      rw [hcount]
      exact ⟨by decide, fun hroot => absurd hroot (h.held fh f hf hv).1⟩
  obtain ⟨hclean, hglobals⟩ := release_cleans cfg (c.clock 0) (v := a.session.vfs) h.numbered h.globals
    hlinks hone
  have hvfs : (a.session.exec cfg c).vfs = (Vfs.release cfg (c.clock 0) fh a.session.vfs).2 := by
    unfold Session.exec Session.outcome
    rw [hq, Request.handle, bind_reply]
  have hstate : (CleanUp.release cfg (c.clock 0) fh ⟨a.session.vfs, []⟩).2.state =
      (a.session.exec cfg c).vfs := by
    rw [hvfs]
    exact (release_cleanUp_follows cfg (c.clock 0) fh ⟨a.session.vfs, []⟩).2
  have hdrops : c.drops cfg a.session.vfs =
      (CleanUp.release cfg (c.clock 0) fh ⟨a.session.vfs, []⟩).2.seen := by
    unfold Call.drops
    rw [hq]
  rw [hstate] at hglobals
  refine h.next (fun _ => False) (Session.selfNumbered_exec h.numbered c) hglobals
    (fun k => ?_) fun k hk f' hf' => ?_
  · have hfate := (hclean k).fate False
    rw [hstate, ← hdrops] at hfate
    exact hfate
  · obtain ⟨f, hf, hhid⟩ := hk.resolve_left id
    obtain ⟨hroot, hle⟩ := h.hidden_links hf hhid
    have hnot : ¬ (fh = k ∧ a.session.vfs.openCount fh = 1) := by
      intro hlast
      have hgone := ((hclean k).gone f hf ⟨hlast, hroot, hle⟩).1
      dsimp only at hgone
      rw [hstate] at hgone
      cases hgone.symm.trans hf'
    have hrefs : a.session.references k ≤ (a.session.exec cfg c).references k :=
      Session.references_le fun l hl => by
        rw [hq] at hl
        cases hl
    have hopen := (release_run cfg (c.clock 0) fh a.session.vfs).2 k
    rw [← hvfs] at hopen
    refine ⟨hroot, (h.held k f hf hhid).2.imp (fun hpos => Int.lt_of_lt_of_le hpos hrefs) fun hpos => ?_⟩
    rw [hopen]
    split
    · rename_i hk
      have hmany : a.session.vfs.openCount fh ≠ 1 := fun h => hnot ⟨hk, h⟩
      rw [← hk] at hpos
      omega
    · exact hpos

end

/-! ### Writes -/

section

variable {s s' : Fs H} {fh : Nat} {f f₁ v : FileInode H}

omit [DecidableEq H] in
theorem OffsetsOnly.sameLinks (h : OffsetsOnly f f₁) : f.SameLinks f₁ := by
  rw [h.eq]
  exact ⟨rfl, rfl, rfl⟩

omit [DecidableEq H] in
theorem Reread.sameLinks (h : Reread fh s s') : s.inodes.SameLinks s'.inodes := fun k => by
  by_cases hk : k = fh
  · rw [hk]
    rcases h.self with ⟨hf, hf'⟩ | ⟨f, f', hf, hf', hoff⟩
    · rw [hf, hf']
      exact .none
    · rw [hf, hf']
      exact .some hoff.sameLinks
  · rw [h.others k hk]
    exact FSMeta.SameLinks.refl s.inodes k

omit [DecidableEq H] in
theorem FileInode.SameLinks.written (f : FileInode H) (blks : List (FileBlock H)) (offset n : Nat)
    (now : Time) : f.SameLinks (f.written blks offset n now) := ⟨rfl, rfl, rfl⟩

omit [DecidableEq H] in
/-- The inodes keep their own numbers. -/
theorem FSMeta.SameLinks.selfNumbered {t t' : FSMeta H} (h : t.SameLinks t') (ht : SelfNumbered t) :
    SelfNumbered t' := by
  intro k v hv
  obtain ⟨f, hf, hsame⟩ := h.left hv
  exact hsame.inode.trans (ht k f hf)

/-- A write changes no link. -/
theorem write_sameLinks (cfg : Config) (P : Packages H) (fh offset : Nat) (buf : Bytes) (now : Time)
    (s : Fs H) : s.inodes.SameLinks (VeratyFS.write cfg P fh offset buf now s).2.inodes := by
  cases hf : s.inodes.d.get? fh with
  | none =>
    rw [write_missing hf]
    exact .refl s.inodes
  | some f =>
    by_cases hm : inMiddle f offset buf.length
    · rcases write_middle cfg P now hf hm with
        ⟨_, hread⟩ | ⟨sd, sb, eb, data, s₁, f₁, blks, g', _, hread, hf₁, _, _, hw⟩
      · exact hread.sameLinks
      · rw [hw]
        exact hread.sameLinks.set hf₁ (.written f₁ _ offset buf.length now)
    · obtain ⟨blks, g', _, hw⟩ := write_append cfg P now hf hm
      rw [hw]
      exact (FSMeta.SameLinks.refl s.inodes).set hf (.written f _ offset buf.length now)

end

/-- **`write`**. -/
theorem Reclaiming.write {a : Audit H} (h : Reclaiming a) (fh offset : Nat) (buf : Bytes) (now : Time) :
    Reclaiming (a.exec cfg P (.write fh offset buf now)) := by
  have hsame : a.session.inodes.SameLinks (a.session.write cfg P fh offset buf now).inodes :=
    write_sameLinks cfg P fh offset buf now a.session.vfs.fs
  refine h.next (fun _ => False) (hsame.selfNumbered h.numbered)
    ((placed_preserved cfg).calls.write_kept fh offset buf now h.globals)
    (fun k => hsame.fate False k) fun k hk f' _ => ?_
  obtain ⟨f, hf, hhid⟩ := hk.resolve_left id
  exact h.held k f hf hhid

/-! ## Runs -/

/-- **One call.** -/
theorem Reclaiming.exec {a : Audit H} (h : Reclaiming a) {e : FileCall}
    (hok : e.reclaims a.session = true) : Reclaiming (a.exec cfg P e) := by
  cases e with
  | write fh offset buf now => exact h.write fh offset buf now
  | request c =>
    cases hq : c.request with
    | forget l => exact h.forget hq hok
    | release fh => exact h.release hq hok
    | _ => exact h.request (by rw [hq]; rfl) hok

/-- The root is visible, with one link. -/
theorem Reclaiming.fresh {cacheSize : Nat} {hpos : 0 < cacheSize} {ds mds : List (DataStore H)}
    (hne : ds ≠ []) (hnum : Numbered ds) :
    Reclaiming (Audit.start (.fresh cacheSize hpos ds mds)) := by
  have hsound : Sound (Fs.fresh cacheSize hpos ds mds) := .fresh hne hnum
  have hroot : ∀ k f, (Session.fresh cacheSize hpos ds mds).inodes.d.get? k = some f →
      f.inode = k ∧ f.stNlink = 1 ∧ f.listOnDirLookup = true := by
    intro k f hf
    have hf' : (initFileSystem 0 0 0 (FSMeta.new (H := H) true)).d.get? k = some f := hf
    unfold initFileSystem at hf'
    rw [FSMeta.setItem_d_get?] at hf'
    split at hf'
    · rename_i hk
      cases hf'
      exact ⟨hk, rfl, rfl⟩
    · cases hf'
  refine ⟨fun k f hf => (hroot k f hf).1, ⟨hsound.placed, hsound.remembered⟩, fun k f hf => ?_,
    fun k f hf hhid => ?_, fun k f hf => ⟨rfl, ?_⟩, fun k hk => ?_⟩
  · obtain ⟨_, hlinks, hvis⟩ := hroot k f hf
    rw [hlinks, hvis]
    rfl
  · rw [(hroot k f hf).2.2] at hhid
    cases hhid
  · have hf' : (Session.fresh cacheSize hpos ds mds).inodes.d.get? k = some f := hf
    unfold Audit.start
    dsimp only
    rw [hf']
    rfl
  · have hk' : (Session.fresh cacheSize hpos ds mds).inodes.d.get? k = none := hk
    unfold Audit.start
    dsimp only
    rw [hk']
    rfl

omit [DecidableEq H] in
/-- The inode has no visible name, no open handle, and the kernel refers to it no longer. -/
structure Session.Abandoned (s : Session H) (k : Nat) : Prop where
  unnamed : ∀ f, s.inodes.d.get? k = some f → f.listOnDirLookup = false
  closed : s.vfs.openCount k ≤ 0
  forgotten : s.references k ≤ 0

omit [DecidableEq H] in
/-- The inode is gone, and `update_index(add=False)` was called once for each of its blocks. -/
structure Audit.Reclaimed (a : Audit H) (k : Nat) : Prop where
  gone : a.session.inodes.d.get? k = none
  once : a.calls k = (a.blocks k).map FileBlock.hash

theorem Reclaiming.reclaimed {a : Audit H} (h : Reclaiming a) {k : Nat} (hk : a.session.Abandoned k) :
    a.Reclaimed k := by
  have hgone : a.session.inodes.d.get? k = none := by
    cases hf : a.session.inodes.d.get? k with
    | none => rfl
    | some f =>
      have hclosed := hk.closed
      have hforgotten := hk.forgotten
      rcases (h.held k f hf (hk.unnamed f hf)).2 with huses | huses <;> omega
  exact ⟨hgone, h.settled k hgone⟩

/-- **Unlinked files are reclaimed exactly once**: in a run that hides only what is in use, discards
only what has no blocks, and cleans nothing up after its parent. -/
theorem unlinked_reclaimed {cacheSize : Nat} {hpos : 0 < cacheSize} {ds mds : List (DataStore H)}
    (hne : ds ≠ []) (hnum : Numbered ds) {es : List FileCall} {a : Audit H} {k : Nat}
    (hrun : ((audits cfg P).meeting fun a e => e.reclaims a.session = true).Run
      (.start (.fresh cacheSize hpos ds mds)) es a)
    (hk : a.session.Abandoned k) : a.Reclaimed k := by
  have ha : Reclaiming a := by
    refine hrun.invariant (I := Reclaiming) ?_ (.fresh hne hnum)
    rintro a e _ ha ⟨rfl, hok⟩
    exact ha.exec hok
  exact ha.reclaimed hk

/-! ## Sample runs -/

/-- A file of two blocks is replaced while it is open, and closed and forgotten later. -/
def replacedWhileOpen : List FileCall :=
  [.request ⟨.create ⟨1, [97], 33188, 0, 0, 0, none⟩, fun _ _ => 0⟩, .write 2 0 [7] 0,
    .write 2 1 [8] 0, .request ⟨.create ⟨1, [98], 33188, 0, 0, 0, none⟩, fun _ _ => 0⟩,
    .request ⟨.rename 1 [98] 1 [97] 0, fun _ _ => 0⟩, .request ⟨.release 2, fun _ _ => 0⟩,
    .request ⟨.forget [(2, 1)], fun _ _ => 0⟩]

theorem unlinked_reclaimed_sample :
    let a := System.after (Audit.exec .shipped .plain) (.start sampleSession) replacedWhileOpen
    a.Reclaimed 2 :=
  unlinked_reclaimed (List.cons_ne_nil _ _) sampleStores_numbered
    (System.run_meeting_after (Audit.exec .shipped .plain) (fun a e => e.reclaims a.session)
      replacedWhileOpen (.start sampleSession) (by decide))
    ⟨fun f hf => (by
      have hnone : (System.after (Audit.exec .shipped .plain) (.start sampleSession)
        replacedWhileOpen).session.inodes.d.get? 2 = none := by decide
      rw [hnone] at hf
      cases hf), by decide, by decide⟩

/-- A directory is removed after a file in it is unlinked, and before that file is closed and
forgotten. -/
def orphanedFile : List FileCall :=
  [.request ⟨.mkdir ⟨1, [100], 16877, 0, 0, 0, none⟩, fun _ _ => 0⟩,
    .request ⟨.create ⟨2, [97], 33188, 0, 0, 0, none⟩, fun _ _ => 0⟩, .write 3 0 [7] 0,
    .request ⟨.unlink 2 [97], fun _ _ => 0⟩, .request ⟨.rmdir 1 [100], fun _ _ => 0⟩,
    .request ⟨.release 3, fun _ _ => 0⟩, .request ⟨.forget [(3, 1), (2, 1)], fun _ _ => 0⟩]

/-- The file stays in the table, and no block is dropped. -/
theorem orphan_kept :
    let a := System.after (Audit.exec .shipped .plain) (.start sampleSession) orphanedFile
    (audits .shipped .plain).Run (.start sampleSession) orphanedFile a ∧ a.session.Abandoned 3 ∧
      ¬ a.Reclaimed 3 := by
  refine ⟨System.run_after _ orphanedFile _, ⟨fun f hf => ?_, by decide +kernel, by decide +kernel⟩,
    fun h => ?_⟩
  · have hhid : ((System.after (Audit.exec .shipped .plain) (.start sampleSession)
        orphanedFile).session.inodes.d.get? 3).all (fun f => !f.listOnDirLookup) = true := by
      decide +kernel
    rw [hf] at hhid
    exact (Bool.not_eq_true' _).mp hhid
  · have hkept : ((System.after (Audit.exec .shipped .plain) (.start sampleSession)
        orphanedFile).session.inodes.d.get? 3).isSome = true := by
      decide +kernel
    rw [h.gone] at hkept
    cases hkept

end VeratyFS
