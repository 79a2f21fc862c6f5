import Mathlib.Data.Set.Card
import VeratyFS.LookupCounts
import VeratyFS.FreshNumbers

/-!
# Links and names

Does `st_nlink` say how many names an inode has?

* `Fs.resolves` — the directory entries that `lookup` resolves to an inode.
* `LinksCounted` — no two visible inodes share a name; a visible inode has one link, a hidden one
  none.  `LinksCounted.ncard`: then the links are the names.
* `Request.refusesLink` — `link` gives no second name.
* `links_count_names` — runs in which names are free where they are created and no link is made.
* `LinkRun.miscounts` — every link that is made counts a link for a name that leads elsewhere.
-/

set_option autoImplicit false
set_option maxRecDepth 1024

namespace VeratyFS

open Pylib

variable {H : Type}

/-! ## Names -/

/-- `lookup` finds the inode under a directory entry. -/
def Fs.resolves (s : Fs H) (k : Nat) (e : Nat × Bytes) : Prop :=
  ∃ a, (Fs.lookup e.1 e.2 s).1 = .ok a ∧ a.stIno = k

/-- Every name has one inode at most; a visible inode has one link, a hidden one none. -/
structure LinksCounted (t : FSMeta H) : Prop where
  unique : UniqueNames t
  links : ∀ k f, t.d.get? k = some f → f.stNlink = if f.listOnDirLookup then 1 else 0

section

variable {s : Fs H} {t t' : FSMeta H} {k : Nat} {f v : FileInode H}

/-- The reply of a search is what `getattr` says of the inode. -/
theorem Fs.resolves_iff (hs : SelfNumbered s.inodes) (e : Nat × Bytes) :
    s.resolves k e ↔ ∃ f, findEntry s.inodes e.1 e.2 = some (k, f) := by
  unfold Fs.resolves
  cases hfind : findEntry s.inodes e.1 e.2 with
  | none =>
    rw [lookup_missing hfind]
    constructor
    · rintro ⟨a, ha, _⟩
      cases ha
    · rintro ⟨f, hf⟩
      cases hf
  | some x =>
    rw [lookup_found hs hfind]
    constructor
    · rintro ⟨a, ha, hk⟩
      cases ha
      exact ⟨x.2, by rw [← hk]; rfl⟩
    · rintro ⟨f, hf⟩
      cases hf
      exact ⟨_, rfl, rfl⟩

/-- The one visible inode of a name is found. -/
theorem UniqueNames.findEntry (h : UniqueNames t) (hk : t.d.get? k = some f) {p : Nat} {n : Bytes}
    (hf : f.named p n = true) : findEntry t p n = some (k, f) := by
  cases hfind : VeratyFS.findEntry t p n with
  | none =>
    rw [findEntry_none.mp hfind k f hk] at hf
    cases hf
  | some e =>
    obtain ⟨hget, hnamed⟩ := findEntry_some hfind
    have hsame := h e.1 k e.2 f p n hget hk hnamed hf
    rw [hsame, hk] at hget
    cases hget
    exact congrArg some (Prod.ext hsame rfl)

theorem SelfNumbered.resolves_iff (hs : SelfNumbered s.inodes) (h : UniqueNames s.inodes)
    (hk : s.inodes.d.get? k = some f) (e : Nat × Bytes) :
    s.resolves k e ↔ f.named e.1 e.2 = true := by
  rw [Fs.resolves_iff hs]
  constructor
  · rintro ⟨g, hg⟩
    obtain ⟨hget, hnamed⟩ := findEntry_some hg
    rw [hk] at hget
    cases hget
    exact hnamed
  · exact fun hnamed => ⟨f, h.findEntry hk hnamed⟩

/-- A visible inode has one name, a hidden one none. -/
theorem SelfNumbered.ncard_resolves (hs : SelfNumbered s.inodes) (h : UniqueNames s.inodes)
    (hk : s.inodes.d.get? k = some f) :
    {e | s.resolves k e}.ncard = if f.listOnDirLookup then 1 else 0 := by
  cases hv : f.listOnDirLookup with
  | true =>
    have hset : {e | s.resolves k e} = {(f.parentInode, f.name)} := by
      ext e
      rw [Set.mem_ofPred_eq, hs.resolves_iff h hk, FileInode.named_iff, Set.mem_singleton_iff]
      constructor
      · rintro ⟨hparent, hname, _⟩
        exact Prod.ext hparent.symm hname.symm
      · rintro rfl
        exact ⟨rfl, rfl, hv⟩
    rw [hset, Set.ncard_singleton]
    rfl
  | false =>
    have hset : {e | s.resolves k e} = ∅ := by
      refine Set.eq_empty_of_forall_notMem fun e he => ?_
      have hvis := (FileInode.named_iff.mp ((hs.resolves_iff h hk e).mp he)).2.2
      rw [hv] at hvis
      cases hvis
    rw [hset, Set.ncard_empty]
    rfl

/-- **The links are the names**, and every name leads to the attributes of the inode. -/
theorem LinksCounted.ncard (h : LinksCounted s.inodes) (hs : SelfNumbered s.inodes)
    (hk : s.inodes.d.get? k = some f) :
    f.stNlink = {e | s.resolves k e}.ncard ∧
      ∀ e, s.resolves k e → (Fs.lookup e.1 e.2 s).1 = .ok (f.attributes k) := by
  constructor
  · rw [h.links k f hk, hs.ncard_resolves h.unique hk]
    split <;> rfl
  · intro e he
    rw [lookup_found hs (h.unique.findEntry hk ((hs.resolves_iff h.unique hk e).mp he))]

/-! ## Changes of the table -/

/-- One inode changes: it is hidden without a link, or it has one link and its name is free. -/
theorem LinksCounted.change (h : LinksCounted t)
    (hd : ∀ x, t'.d.get? x = if k = x then some v else t.d.get? x)
    (hlinks : v.stNlink = if v.listOnDirLookup then 1 else 0)
    (hfree : ∀ p n, v.named p n = true → ∀ x g, x ≠ k → t.d.get? x = some g → g.named p n = false) :
    LinksCounted t' := by
  refine ⟨fun x y g g' p n hg hg' hn hn' => ?_, fun x g hg => ?_⟩
  · rw [hd] at hg hg'
    split at hg
    · rename_i hx
      split at hg'
      · rename_i hy
        exact hx.symm.trans hy
      · rename_i hy
        cases hg
        rw [hfree p n hn y g' (Ne.symm hy) hg'] at hn'
        cases hn'
    · rename_i hx
      split at hg'
      · rename_i hy
        cases hg'
        rw [hfree p n hn' x g (Ne.symm hx) hg] at hn
        cases hn
      · exact h.unique x y g g' p n hg hg' hn hn'
  · rw [hd] at hg
    split at hg
    · cases hg
      exact hlinks
    · exact h.links x g hg

/-- Inodes go. -/
theorem LinksCounted.shrink (h : LinksCounted t)
    (hd : ∀ x g, t'.d.get? x = some g → t.d.get? x = some g) : LinksCounted t' :=
  ⟨fun x y g g' p n hg hg' => h.unique x y g g' p n (hd x g hg) (hd y g' hg'),
    fun x g hg => h.links x g (hd x g hg)⟩

theorem LinksCounted.commit (h : LinksCounted t) : LinksCounted t.commit :=
  h.shrink fun x g hg => by rwa [FSMeta.commit_d] at hg

theorem LinksCounted.delItem (h : LinksCounted t) (k : Nat) : LinksCounted (t.delItem k).2 :=
  h.shrink (t.forall_delItem (fun _ _ => id) k)

/-- The lookup counts change, and inodes go. -/
theorem LinksCounted.recount (h : LinksCounted t)
    (hd : ∀ x g, t'.d.get? x = some g → ∃ g' c, t.d.get? x = some g' ∧ g = { g' with lookupCount := c }) :
    LinksCounted t' := by
  refine ⟨fun x y g g' p n hg hg' hn hn' => ?_, fun x g hg => ?_⟩
  · obtain ⟨g₁, c, hg₁, rfl⟩ := hd x g hg
    obtain ⟨g₂, c', hg₂, rfl⟩ := hd y g' hg'
    exact h.unique x y g₁ g₂ p n hg₁ hg₂ hn hn'
  · obtain ⟨g₁, c, hg₁, rfl⟩ := hd x g hg
    exact h.links x g₁ hg₁

theorem LinksCounted.lookedUp (h : LinksCounted t) (hk : t.d.get? k = some f) :
    LinksCounted (t.update k f.lookedUp) := by
  refine h.recount fun x g hg => ?_
  rw [FSMeta.update_d_get?_of hk] at hg
  split at hg
  · rename_i e
    cases hg
    exact ⟨f, _, e ▸ hk, rfl⟩
  · exact ⟨g, g.lookupCount, hg, rfl⟩

end

/-! ## Requests -/

/-- A name is created where none is visible. -/
def Request.namesFree (t : FSMeta H) : Request → Bool
  | .create a => (findEntry t a.parent a.name).isNone
  | .mkdir a => (findEntry t a.parent a.name).isNone
  | .mknod a _ => (findEntry t a.parent a.name).isNone
  | .symlink p n _ _ _ => (findEntry t p n).isNone
  | .link _ p n => (findEntry t p n).isNone
  | _ => true

/-- `link` finds its parent missing or unlinked, or no inode to link.  What `rename` deletes has a
    number that fits its key. -/
def Request.refusesLink (s : Session H) : Request → Bool
  | .link inode p _ =>
    s.refusesIn p ||
      !s.inodes.d.contains inode && decide (s.inodes.max.map (· + 1) ≠ some inode)
  | .rename _ _ pNew nNew _ => s.inodes.d.entries.all fun e =>
    !e.2.named pNew nNew || decide (0 ≤ e.2.lookupCount) || decide (e.1 < 256 ^ 64)
  | _ => true

section

variable {s s' : Fs H} {k : Nat} {f v : FileInode H} {now : Time}

/-- A new inode with a free name. -/
theorem LinksCounted.add (h : LinksCounted s.inodes) {p : Nat} {n : Bytes}
    (hfree : findEntry s.inodes p n = none) (hvis : v.listOnDirLookup = true) (hlinks : v.stNlink = 1)
    (hparent : v.parentInode = p) (hname : v.name = n) : LinksCounted (s.inodes.setItem k v) := by
  refine h.change (s.inodes.setItem_d_get? k · v) ?_ fun q m hn x g _ hg => ?_
  · rw [hvis, hlinks]
    rfl
  · obtain ⟨hq, hm, _⟩ := FileInode.named_iff.mp hn
    rw [← hq, ← hm, hparent, hname]
    exact findEntry_none.mp hfree x g hg

theorem CreateRun.links {a : CreateArgs} {r : Except PyError EntryAttributes}
    (h : CreateRun s a now r s') (hc : LinksCounted s.inodes)
    (hfree : findEntry s.inodes a.parent a.name = none) : LinksCounted s'.inodes := by
  cases h with
  | orphan parent => exact hc
  | unlinkedParent parent links => exact hc
  | done parent links number => exact (hc.add hfree rfl rfl rfl rfl).commit

/-- A visible inode moves to a name that no other one has. -/
theorem LinksCounted.move {t : FSMeta H} (h : LinksCounted t) (hk : t.d.get? k = some f) {p : Nat}
    {n : Bytes} (hfree : ∀ x g, x ≠ k → t.d.get? x = some g → g.named p n = false) :
    LinksCounted (t.setItem k (f.movedTo p n)) := by
  refine h.change (t.setItem_d_get? k · _) (h.links k f hk) fun q m hn x g hx hg => ?_
  obtain ⟨hq, hm, _⟩ := FileInode.named_iff.mp hn
  rw [← hq, ← hm]
  exact hfree x g hx hg

/-- A visible inode is hidden. -/
theorem LinksCounted.hide {t : FSMeta H} (h : LinksCounted t) {g : FileInode H}
    (hk : t.d.get? k = some f) (hvis : f.listOnDirLookup = true) (hg : g.listOnDirLookup = false)
    (hlinks : g.stNlink = f.stNlink - 1) : LinksCounted (t.setItem k g) := by
  refine h.change (t.setItem_d_get? k · g) ?_ fun q m hn => ?_
  · have hone := h.links k f hk
    rw [hvis] at hone
    rw [hlinks, hone, hg]
    rfl
  · have := (FileInode.named_iff.mp hn).2.2
    rw [hg] at this
    cases this

/-- The inode of a name, after a lookup of `x`. -/
theorem findEntry_lookedUp {t : FSMeta H} {x : Nat} {g : FileInode H} (hx : t.d.get? x = some g)
    {p : Nat} {n : Bytes} (h : findEntry (t.update x g.lookedUp) p n = some (k, f)) :
    ∃ f₀, t.d.get? k = some f₀ ∧ f₀.named p n = true ∧ f₀.lookupCount ≤ f.lookupCount := by
  obtain ⟨hget, hnamed⟩ := findEntry_some h
  rw [FSMeta.update_d_get?_of hx] at hget
  split at hget
  · rename_i e
    cases hget
    refine ⟨g, e ▸ hx, hnamed, ?_⟩
    show g.lookupCount ≤ g.lookupCount + 1
    omega
  · exact ⟨f, hget, hnamed, Int.le_refl _⟩

/-- The inode `k` takes the name of `k'`, which is hidden or gone. -/
theorem LinksCounted.replace {t t' : FSMeta H} (h : LinksCounted t) {k' : Nat} {m g : FileInode H}
    {p : Nat} {n : Bytes} {o : Option (FileInode H)} (hm : t.d.get? k = some m)
    (hg : t.d.get? k' = some g) (hnamed : g.named p n = true)
    (ho : ∀ v, o = some v → v.listOnDirLookup = false ∧ v.stNlink = 0)
    (hd : ∀ x, t'.d.get? x = if k' = x then o else if k = x then some (m.movedTo p n)
      else t.d.get? x) : LinksCounted t' := by
  -- no other inode is visible under the name
  have hfree : ∀ x g', k' ≠ x → t.d.get? x = some g' → g'.named p n = false := by
    intro x g' hx hg'
    refine Bool.eq_false_iff.mpr fun hn => hx ?_
    exact h.unique k' x g g' p n hg hg' hnamed hn
  have hother : ∀ {x : Nat} {v : FileInode H}, t'.d.get? x = some v → v.listOnDirLookup = true →
      k' ≠ x ∧ (if k = x then some (m.movedTo p n) else t.d.get? x) = some v := by
    intro x v hv hvis
    rw [hd] at hv
    split at hv
    · rw [(ho v hv).1] at hvis
      cases hvis
    · rename_i hx
      exact ⟨hx, hv⟩
  refine ⟨fun x y v w q l hv hw hnv hnw => ?_, fun x v hv => ?_⟩
  · obtain ⟨hx, hv⟩ := hother hv (FileInode.named_iff.mp hnv).2.2
    obtain ⟨hy, hw⟩ := hother hw (FileInode.named_iff.mp hnw).2.2
    split at hv
    · rename_i ex
      split at hw
      · rename_i ey
        exact ex.symm.trans ey
      · cases hv
        obtain ⟨hq, hl, _⟩ := FileInode.named_iff.mp hnv
        have hname : w.named p n = true := by
          rw [← show p = q from hq, ← show n = l from hl] at hnw
          exact hnw
        rw [hfree y w hy hw] at hname
        cases hname
    · split at hw
      · cases hw
        obtain ⟨hq, hl, _⟩ := FileInode.named_iff.mp hnw
        have hname : v.named p n = true := by
          rw [← show p = q from hq, ← show n = l from hl] at hnv
          exact hnv
        rw [hfree x v hx hv] at hname
        cases hname
      · exact h.unique x y v w q l hv hw hnv hnw
  · rw [hd] at hv
    split at hv
    · obtain ⟨hvis, hlinks⟩ := ho v hv
      rw [hvis, hlinks]
      rfl
    · split at hv
      · cases hv
        exact h.links k m hm
      · exact h.links x v hv

theorem RenameRun.links {pOld pNew flags : Nat} {nOld nNew : Bytes} {r : Except PyError Unit}
    (h : RenameRun s pOld nOld pNew nNew flags r s') (hc : LinksCounted s.inodes)
    (hfits : ∀ k f, s.inodes.d.get? k = some f → f.named pNew nNew = true →
      0 ≤ f.lookupCount ∨ k < 256 ^ 64) : LinksCounted s'.inodes := by
  cases h with
  | flags h => exact hc
  | missing h found => exact hc
  | @moved k f h found free =>
    have hk := (findEntry_some found).1
    have hk₁ : (s.inodes.update k f.lookedUp).d.get? k = some f.lookedUp :=
      (FSMeta.update_d_get?_of hk _ k).trans (if_pos rfl)
    exact ((hc.lookedUp hk).move hk₁ fun x g _ hg => findEntry_none.mp free x g hg).commit
  | @replaced k k' f g m d h found target moved count deref =>
    have htarget := findEntry_some target
    have hc₂ := (hc.lookedUp (findEntry_some found).1).lookedUp htarget.1
    have hk' : ((s.inodes.update k f.lookedUp).update k' g.lookedUp).d.get? k' = some g.lookedUp :=
      (FSMeta.update_d_get?_of htarget.1 _ k').trans (if_pos rfl)
    refine LinksCounted.commit (hc₂.replace moved hk' htarget.2 (o := some d.hidden) (fun v hv => ?_)
      fun x => ?_)
    · cases hv
      -- the inode that is hidden was visible, so it had its one link
      have hone : d.stNlink = 1 := by
        rw [FSMeta.setItem_d_get?] at deref
        split at deref
        · rename_i e
          subst e
          cases deref
          rw [hk'] at moved
          cases moved
          have hlinks := hc₂.links k _ hk'
          rw [show g.lookedUp.listOnDirLookup = true from
            (FileInode.named_iff.mp htarget.2).2.2] at hlinks
          exact hlinks
        · rw [hk'] at deref
          cases deref
          have hlinks := hc₂.links k' _ hk'
          rw [show g.lookedUp.listOnDirLookup = true from
            (FileInode.named_iff.mp htarget.2).2.2] at hlinks
          exact hlinks
      refine ⟨rfl, ?_⟩
      show d.stNlink - 1 = 0
      omega
    · rw [FSMeta.setItem_d_get?, FSMeta.setItem_d_get?]
  | @deleted k k' f g m h found target moved count =>
    have htarget := findEntry_some target
    have hc₂ := (hc.lookedUp (findEntry_some found).1).lookedUp htarget.1
    have hk' : ((s.inodes.update k f.lookedUp).update k' g.lookedUp).d.get? k' = some g.lookedUp :=
      (FSMeta.update_d_get?_of htarget.1 _ k').trans (if_pos rfl)
    obtain ⟨f₀, hf₀, hnamed₀, hle⟩ := findEntry_lookedUp (findEntry_some found).1 target
    have hneg : ¬ 0 ≤ f₀.lookupCount := by
      have hcount : ¬ 0 < g.lookupCount + 1 := count
      omega
    have hfit := toBytes_isSome.mpr ((hfits k' f₀ hf₀ hnamed₀).resolve_left hneg)
    have hthere : (((s.inodes.update k f.lookedUp).update k' g.lookedUp).setItem k
        (m.movedTo pNew nNew)).d.contains k' = true := by
      refine (Dict.contains_iff _).mpr ?_
      rw [FSMeta.setItem_d_get?]
      split
      · exact ⟨_, rfl⟩
      · exact ⟨_, hk'⟩
    refine LinksCounted.commit (hc₂.replace moved hk' htarget.2 (o := none) (fun v hv => ?_)
      fun x => ?_)
    · cases hv
    · rw [FSMeta.delItem_d_get?_of_fits hfit hthere, FSMeta.setItem_d_get?]

end

/-- **Every request** but a link that is made keeps links and names in step. -/
theorem Handled.links {s : Session H} {t : Fs H} {now : Time} {q : Request}
    {r : Except PyError Reply} (h : Handled s.vfs now q r t) (hc : LinksCounted s.inodes)
    (hfree : q.namesFree s.inodes = true) (hrefuses : q.refusesLink s = true) :
    LinksCounted t.inodes := by
  have hfind : ∀ {p : Nat} {n : Bytes}, (findEntry s.inodes p n).isNone = true →
      findEntry s.vfs.fs.inodes p n = none := Option.isNone_iff_eq_none.mp
  have hlookup : ∀ {p : Nat} {n : Bytes} {k : Nat} {f : FileInode H},
      findEntry s.vfs.fs.inodes p n = some (k, f) →
      LinksCounted (s.vfs.fs.inodes.update k f.lookedUp) :=
    fun found => LinksCounted.lookedUp hc (findEntry_some found).1
  cases h with
  | lookup run =>
    cases run with
    | missing found => exact hc
    | done found => exact hlookup found
  | create run => exact run.links hc (hfind hfree)
  | mkdir run => exact run.links hc (hfind hfree)
  | mknod run => exact run.links hc (hfind hfree)
  | @symlink p n target uid gid _ _ run =>
    cases run with
    | failed created => exact hc
    | @done _ ino parent links number =>
      have hadd := (LinksCounted.add (v := (symlinkArgs p n target uid gid).newInode ino now)
        (k := ino) hc (hfind hfree) rfl rfl rfl rfl).commit
      refine LinksCounted.commit (hadd.recount fun x g hg => ?_)
      rw [FSMeta.setItem_d_get?] at hg
      split at hg
      · rename_i e
        cases hg
        exact ⟨_, _, e ▸ FSMeta.get?_commit_setItem _ _ _, rfl⟩
      · exact ⟨g, g.lookupCount, hg, rfl⟩
  | @link inode p n _ _ run =>
    cases run with
    | orphan parent => exact hc
    | unlinkedParent parent links => exact hc
    | dangling parent links number target => exact LinksCounted.add hc (hfind hfree) rfl rfl rfl rfl
    | @done _ _ ni parent links number target =>
      -- refused: there is no inode to link
      exfalso
      have hparent := Session.refusesIn_of parent links
      obtain ⟨m, hm, rfl⟩ := number
      have hm' : s.inodes.max = some m := hm
      simp only [Request.refusesLink, hparent, hm', Bool.false_or, Bool.and_eq_true,
        Bool.not_eq_true', decide_eq_true_eq, Option.map_some] at hrefuses
      rw [FSMeta.setItem_d_get?, if_neg fun e => hrefuses.2 (congrArg some e)] at target
      have hnone := (Dict.contains_eq_false _).mp hrefuses.1
      rw [show s.vfs.fs.inodes.d.get? inode = none from hnone] at target
      cases target
  | unlink run =>
    cases run with
    | missing found => exact hc
    | directory found dir => exact hlookup found
    | @done k f found file =>
      obtain ⟨hk, hnamed⟩ := findEntry_some found
      have hk₁ : (s.vfs.fs.inodes.update k f.lookedUp).d.get? k = some f.lookedUp :=
        (FSMeta.update_d_get?_of hk _ k).trans (if_pos rfl)
      exact ((hlookup found).hide hk₁ (FileInode.named_iff.mp hnamed).2.2 rfl rfl).commit
  | rmdir run =>
    cases run with
    | missing found => exact hc
    | file found file => exact hlookup found
    | notEmpty found dir children => exact hlookup found
    | done found dir empty => exact ((hlookup found).delItem _).commit
  | @rename pOld pNew flags nOld nNew _ _ run =>
    refine run.links hc fun k f hk hnamed => ?_
    have hone := List.all_eq_true.mp hrefuses (k, f) ((Dict.mem_entries_iff _).mpr hk)
    simpa [hnamed] using hone
  | readdir run => exact hc
  | @forget l s₁ rounds =>
    refine LinksCounted.commit (LinksCounted.recount hc fun x g hg => ?_)
    cases hx : s.vfs.fs.inodes.d.get? x with
    | none =>
      rw [(rounds.inode x).1 hx] at hg
      cases hg
    | some f =>
      rcases (rounds.inode x).2 f hx with ⟨c, hc'⟩ | ⟨hgone, _⟩
      · rw [hc'] at hg
        cases hg
        exact ⟨f, c, hx, rfl⟩
      · rw [hgone] at hg
        cases hg
  | openFile => exact hc
  | release run =>
    cases run with
    | kept same =>
      rcases same with rfl | rfl
      · exact hc
      · exact LinksCounted.commit hc
    | removed last found links gone =>
      rcases gone with rfl | rfl
      · exact LinksCounted.delItem hc _
      · exact (LinksCounted.delItem hc _).commit

/-- **A link that is made** leaves one link too many: the new name leads to a file of its own. -/
theorem LinkRun.miscounts {s s' : Fs H} {inode p : Nat} {n : Bytes} {now : Time}
    {e : EntryAttributes} (h : LinkRun s inode p n now (.ok e) s') (hc : LinksCounted s.inodes)
    (hs : SelfNumbered s.inodes) (hfree : findEntry s.inodes p n = none) :
    ∃ f, s'.inodes.d.get? inode = some f ∧ f.stNlink = {x | s'.resolves inode x}.ncard + 1 := by
  have hs' : SelfNumbered s'.inodes := hs.moves (h.moves hs)
  cases h with
  | @done _ f ni parent links number target =>
    have hc₁ : LinksCounted (s.inodes.setItem ni (linkInode inode p n ni now)) :=
      hc.add hfree rfl rfl rfl rfl
    -- the second change of the table moves no name
    have hold : ∀ x g, ((s.inodes.setItem ni (linkInode inode p n ni now)).setItem inode
        { f with stNlink := f.stNlink + 1 }).commit.d.get? x = some g →
        ∃ g', (s.inodes.setItem ni (linkInode inode p n ni now)).d.get? x = some g' ∧
          ∀ q l, g.named q l = g'.named q l := by
      intro x g hg
      rw [FSMeta.commit_d, FSMeta.setItem_d_get?] at hg
      split at hg
      · rename_i hx
        cases hg
        exact ⟨f, hx ▸ target, fun _ _ => rfl⟩
      · exact ⟨g, hg, fun _ _ => rfl⟩
    have hunique : UniqueNames ((s.inodes.setItem ni (linkInode inode p n ni now)).setItem inode
        { f with stNlink := f.stNlink + 1 }).commit := by
      intro x y g g' q l hx hy hn hn'
      obtain ⟨g₁, hg₁, hsame₁⟩ := hold x g hx
      obtain ⟨g₂, hg₂, hsame₂⟩ := hold y g' hy
      exact hc₁.unique x y g₁ g₂ q l hg₁ hg₂ (hsame₁ q l ▸ hn) (hsame₂ q l ▸ hn')
    have hget := FSMeta.get?_commit_setItem (s.inodes.setItem ni (linkInode inode p n ni now)) inode
      { f with stNlink := f.stNlink + 1 }
    refine ⟨_, hget, ?_⟩
    rw [hs'.ncard_resolves hunique hget]
    show f.stNlink + 1 = _
    rw [hc₁.links inode f target]
    split <;> rfl

/-! ## Runs -/

variable [DecidableEq H] {cfg : Config}

/-- **The links of every inode are its names**, in every run of requests that create names where
they are free and make no link; and every name leads to the attributes of its inode. -/
theorem links_count_names {s s' : Session H} {cs : List Call} (hself : SelfNumbered s.inodes)
    (hlinks : LinksCounted s.inodes)
    (hrun : ((sessions cfg).meeting fun s c =>
      (c.request.namesFree s.inodes && c.request.refusesLink s) = true).Run s cs s')
    {k : Nat} {f : FileInode H} (hk : s'.inodes.d.get? k = some f) :
    f.stNlink = {e | s'.vfs.fs.resolves k e}.ncard ∧
      ∀ e, s'.vfs.fs.resolves k e → (Fs.lookup e.1 e.2 s'.vfs.fs).1 = .ok (f.attributes k) := by
  have hinv : SelfNumbered s'.inodes ∧ LinksCounted s'.inodes := by
    refine hrun.invariant (I := fun s => SelfNumbered s.inodes ∧ LinksCounted s.inodes) ?_
      ⟨hself, hlinks⟩
    rintro s c _ ⟨hself, hlinks⟩ ⟨rfl, hc⟩
    rw [Bool.and_eq_true] at hc
    exact ⟨Session.selfNumbered_exec hself c,
      (handle_run cfg c.clock c.request hself).links hlinks hc.1 hc.2⟩
  exact LinksCounted.ncard hinv.2 hinv.1 hk

/-- A root, visible under its own name. -/
theorem sampleSession_links : LinksCounted sampleSession.inodes := by
  have hkeys : ∀ e ∈ sampleSession.inodes.d.entries,
      e.1 = ROOT_INODE ∧ e.2.stNlink = 1 ∧ e.2.listOnDirLookup = true := by
    decide
  refine ⟨fun k k' f f' p n hk hk' _ _ => ?_, fun k f hk => ?_⟩
  · exact (hkeys (k, f) ((Dict.mem_entries_iff _).mpr hk)).1.trans
      (hkeys (k', f') ((Dict.mem_entries_iff _).mpr hk')).1.symm
  · obtain ⟨_, hlinks, hvis⟩ := hkeys (k, f) ((Dict.mem_entries_iff _).mpr hk)
    rw [hvis]
    exact hlinks

/-- A file takes the name of another one, and the name is created again after a removal. -/
def renamedOver : List Call :=
  [⟨.create ⟨1, [97], 33188, 0, 0, 0, none⟩, fun _ _ => 0⟩,
    ⟨.symlink 1 [98] [97] 0 0, fun _ _ => 0⟩, ⟨.rename 1 [97] 1 [98] 0, fun _ _ => 0⟩,
    ⟨.link 9 9 [99], fun _ _ => 0⟩, ⟨.unlink 1 [98], fun _ _ => 0⟩,
    ⟨.mknod ⟨1, [98], 33188, 0, 0, 0, none⟩ 0, fun _ _ => 0⟩]

theorem links_count_names_sample :
    let s := System.after (Session.exec .shipped) sampleSession renamedOver
    ∀ f, s.inodes.d.get? 4 = some f →
      f.stNlink = {e | s.vfs.fs.resolves 4 e}.ncard ∧
        ∀ e, s.vfs.fs.resolves 4 e → (Fs.lookup e.1 e.2 s.vfs.fs).1 = .ok (f.attributes 4) := by
  intro s f hf
  exact links_count_names sampleSession_opened.selfNumbered sampleSession_links
    (System.run_meeting_after (Session.exec .shipped)
      (fun s c => c.request.namesFree s.inodes && c.request.refusesLink s) renamedOver sampleSession
      (by decide)) hf

/-- A file and a link to it. -/
def linkedSession : Session Bytes := System.after (Session.exec .shipped) sampleSession
  [⟨.create ⟨1, [97], 33188, 0, 0, 0, none⟩, fun _ _ => 0⟩, ⟨.link 2 1 [98], fun _ _ => 0⟩]

/-- The new name is another file, of mode 0, and the linked file has one name and two links. -/
theorem link_leads_elsewhere :
    (Fs.lookup 1 [98] linkedSession.vfs.fs).1.map (fun e => (e.stIno, e.stMode, e.stNlink)) =
      .ok (3, 0, 1) ∧
    (getattr 2 linkedSession.vfs.fs).1.map (fun e => (e.stIno, e.stMode, e.stNlink)) =
      .ok (2, 33188, 2) ∧
    ¬ ∀ f, linkedSession.vfs.fs.inodes.d.get? 2 = some f →
      f.stNlink = {e | linkedSession.vfs.fs.resolves 2 e}.ncard := by
  refine ⟨by decide, by decide, fun h => ?_⟩
  have hkeys : ∀ e ∈ linkedSession.vfs.fs.inodes.d.entries, ∀ e' ∈ linkedSession.vfs.fs.inodes.d.entries,
      (e.2.parentInode, e.2.name) = (e'.2.parentInode, e'.2.name) → e.1 = e'.1 := by
    decide
  have hself : ∀ e ∈ linkedSession.vfs.fs.inodes.d.entries, e.2.inode = e.1 := by decide
  have htwo : ∀ e ∈ linkedSession.vfs.fs.inodes.d.entries, e.1 = 2 → e.2.stNlink = 2 := by decide
  have hthere : (linkedSession.vfs.fs.inodes.d.get? 2).isSome = true := by decide
  obtain ⟨f, hf⟩ := Option.isSome_iff_exists.mp hthere
  have hunique : UniqueNames linkedSession.vfs.fs.inodes := by
    intro k k' g g' p n hk hk' hn hn'
    obtain ⟨hp, hm, _⟩ := FileInode.named_iff.mp hn
    obtain ⟨hp', hm', _⟩ := FileInode.named_iff.mp hn'
    exact hkeys (k, g) ((Dict.mem_entries_iff _).mpr hk) (k', g') ((Dict.mem_entries_iff _).mpr hk')
      (Prod.ext (hp.trans hp'.symm) (hm.trans hm'.symm))
  have hnumbered : SelfNumbered linkedSession.vfs.fs.inodes := fun k g hk =>
    hself (k, g) ((Dict.mem_entries_iff _).mpr hk)
  have hcount := h f hf
  rw [hnumbered.ncard_resolves hunique hf, htwo (2, f) ((Dict.mem_entries_iff _).mpr hf) rfl] at hcount
  split at hcount <;> cases hcount

end VeratyFS
