import VeratyFS.FreshNumbers
import VeratyFS.LiveRecords
import VeratyFS.Lib.Ranks

/-!
# Enumerating a directory

`readdir` counts the entries in the order of the inode table, which other calls change between two
of its calls.

* `FSMeta.place` — the index of an inode in the listing of a directory; `dirEntries_getElem?`.
* `TableCall`, `TableCall.shift` — the calls of other processes, and by how many places they move an
  entry; `TableCall.place_exec`: they do.
* `Cycle` — the calls of `readdir` with the offsets that it returned, and other calls in between.
* `readdir_once` — what is visible throughout a cycle is returned once, if no call moves an entry
  across the offset; `ReturnedOnce` is the invariant.
* `unlink_skips` — an entry before the offset is removed, and the next one is skipped.
-/

set_option autoImplicit false
set_option maxRecDepth 1024

namespace VeratyFS

open Pylib

variable {H : Type}

/-! ## Places -/

/-- 1 for true. -/
def tally (b : Bool) : Int := if b then 1 else 0

namespace FSMeta

/-- The directory lists the inode. -/
def lists (t : FSMeta H) (d x : Nat) : Bool :=
  match t.d.get? x with
  | some f => decide (f.parentInode = d ∧ f.listOnDirLookup = true)
  | none => false

/-- The index of an inode in the listing of a directory. -/
def place (t : FSMeta H) (d x : Nat) : Nat := rank (t.lists d) x t.d.keys

/-- The inode `k` stands before the inode `x` in the table. -/
def before (t : FSMeta H) (k x : Nat) : Bool := precedes k x t.d.keys

end FSMeta

section

variable {t t' : FSMeta H} {d i k x : Nat} {n : Bytes} {f : FileInode H}

theorem lists_of (h : t.d.get? x = some f) :
    t.lists d x = decide (f.parentInode = d ∧ f.listOnDirLookup = true) := by
  unfold FSMeta.lists
  rw [h]

theorem lists_named (h : t.d.get? x = some f) (hn : f.named d n = true) : t.lists d x = true := by
  obtain ⟨hparent, _, hvis⟩ := FileInode.named_iff.mp hn
  rw [lists_of h]
  exact decide_eq_true ⟨hparent, hvis⟩

/-- The listing of a directory, by the numbers of the inodes. -/
theorem dirEntries_inodes (hs : SelfNumbered t) (d : Nat) :
    (dirEntries t d).map FileInode.inode = t.d.keys.filter (t.lists d) := by
  unfold dirEntries Dict.keys
  rw [List.filter_map, List.filter_map, List.map_map]
  have hfilter : t.d.entries.filter ((fun f => decide (f.parentInode = d ∧ f.listOnDirLookup = true)) ∘
      Prod.snd) = t.d.entries.filter (t.lists d ∘ Prod.fst) := by
    refine List.filter_congr fun e he => ?_
    exact (lists_of (t.d.mem_entries_iff.mp he)).symm
  rw [hfilter]
  refine List.map_congr_left fun e he => ?_
  exact hs e.1 e.2 (t.d.mem_entries_iff.mp (List.mem_filter.mp he).1)

/-- The entry at an index of the listing. -/
theorem dirEntries_getElem? (hs : SelfNumbered t) (h : (dirEntries t d)[i]? = some f) :
    t.d.get? f.inode = some f ∧ t.lists d f.inode = true ∧ t.place d f.inode = i := by
  have hmem : f ∈ dirEntries t d := List.mem_of_getElem? h
  obtain ⟨e, he, rfl⟩ := List.mem_map.mp (List.mem_filter.mp hmem).1
  have hget := t.d.mem_entries_iff.mp he
  have hinode := hs e.1 e.2 hget
  have hkey : (t.d.keys.filter (t.lists d))[i]? = some e.1 := by
    rw [← dirEntries_inodes hs, List.getElem?_map, h, Option.map_some, hinode]
  obtain ⟨_, hlists, hrank⟩ := (getElem?_filter_iff t.d.nodup).mp hkey
  rw [hinode]
  exact ⟨hget, hlists, hrank⟩

theorem length_dirEntries (hs : SelfNumbered t) (d : Nat) :
    (dirEntries t d).length = (t.d.keys.filter (t.lists d)).length := by
  rw [← dirEntries_inodes hs, List.length_map]

theorem mem_keys_of_lists (h : t.lists d x = true) : x ∈ t.d.keys := by
  refine t.d.mem_keys_iff.mpr ?_
  unfold FSMeta.lists at h
  split at h
  · exact ⟨_, by assumption⟩
  · cases h

theorem place_lt_length (hs : SelfNumbered t) (h : t.lists d x = true) :
    t.place d x < (dirEntries t d).length := by
  rw [length_dirEntries hs]
  exact rank_lt_length t.d.nodup (mem_keys_of_lists h) h

theorem place_inj {y : Nat} (hx : t.lists d x = true) (hy : t.lists d y = true)
    (h : t.place d x = t.place d y) : x = y := by
  have hgetx := (getElem?_filter_iff t.d.nodup).mpr ⟨mem_keys_of_lists hx, hx, h⟩
  have hgety := (getElem?_filter_iff t.d.nodup).mpr ⟨mem_keys_of_lists hy, hy, rfl⟩
  exact Option.some.inj (hgetx.symm.trans hgety)

/-! ## Changes of the table -/

/-- The order of the table stays, and so do the listings. -/
structure SameListing (t t' : FSMeta H) : Prop where
  keys : t'.d.keys = t.d.keys
  lists : ∀ d x, t'.lists d x = t.lists d x

theorem SameListing.place (h : SameListing t t') (d x : Nat) : t'.place d x = t.place d x := by
  unfold FSMeta.place
  rw [h.keys]
  exact rank_congr (h.lists d)

theorem SameListing.before (h : SameListing t t') (k x : Nat) : t'.before k x = t.before k x := by
  unfold FSMeta.before
  rw [h.keys]

theorem SameListing.trans {t'' : FSMeta H} (h : SameListing t t') (h' : SameListing t' t'') :
    SameListing t t'' := ⟨h'.keys.trans h.keys, fun d x => (h'.lists d x).trans (h.lists d x)⟩

theorem SameListing.commit (t : FSMeta H) : SameListing t t.commit :=
  ⟨by rw [FSMeta.commit_d], fun d x => by unfold FSMeta.lists; rw [FSMeta.commit_d]⟩

/-- An inode is set again with its parent and its visibility. -/
theorem SameListing.change {v : FileInode H} (hkeys : t'.d.keys = t.d.keys)
    (hd : ∀ x, t'.d.get? x = if k = x then some v else t.d.get? x) (hk : t.d.get? k = some f)
    (hparent : v.parentInode = f.parentInode) (hvis : v.listOnDirLookup = f.listOnDirLookup) :
    SameListing t t' := by
  refine ⟨hkeys, fun d x => ?_⟩
  unfold FSMeta.lists
  rw [hd]
  by_cases hx : k = x
  · subst hx
    rw [if_pos rfl, hk]
    dsimp only
    rw [hparent, hvis]
  · rw [if_neg hx]

theorem SameListing.lookedUp (hk : t.d.get? k = some f) : SameListing t (t.update k f.lookedUp) :=
  .change (t.d.keys_modify k _) (FSMeta.update_d_get?_of hk _) hk rfl rfl

theorem keys_setItem {v : FileInode H} (hk : t.d.get? k = some f) :
    (t.setItem k v).d.keys = t.d.keys := t.d.keys_set_of_mem v (t.d.mem_keys_iff.mpr ⟨f, hk⟩)

/-- One inode is set anew, in its place. -/
theorem place_setItem {v : FileInode H} (hk : t.d.get? k = some f) (d x : Nat) :
    ((t.setItem k v).place d x : Int) = t.place d x + if t.before k x then
      tally (decide (v.parentInode = d ∧ v.listOnDirLookup = true)) - tally (t.lists d k) else 0 := by
  have hother : ∀ y, y ≠ k → (t.setItem k v).lists d y = t.lists d y := by
    intro y hy
    unfold FSMeta.lists
    rw [FSMeta.setItem_d_get?, if_neg (Ne.symm hy)]
  have hself : (t.setItem k v).lists d k = decide (v.parentInode = d ∧ v.listOnDirLookup = true) :=
    lists_of (t.d.get?_set_self k v)
  have hrank := rank_change (x := x) t.d.nodup hother
  unfold FSMeta.place FSMeta.before tally
  rw [keys_setItem hk, ← hself]
  unfold Dict.keys at hrank ⊢
  cases hb : precedes k x (t.d.entries.map Prod.fst) with
  | false =>
    rw [hb] at hrank
    simp only [Bool.false_and, Bool.false_eq_true, if_false] at hrank ⊢
    omega
  | true =>
    rw [hb] at hrank
    simp only [Bool.true_and, if_true] at hrank ⊢
    generalize (t.setItem k v).lists d k = new at hrank ⊢
    generalize t.lists d k = old at hrank ⊢
    cases new <;> cases old <;> simp only [Bool.false_eq_true, if_true, if_false] at hrank ⊢ <;> omega

/-- An inode is taken out. -/
theorem place_erase (hkeys : t'.d.keys = t.d.keys.erase k)
    (hd : ∀ x, t'.d.get? x = if k = x then none else t.d.get? x) (hx : x ≠ k) (d : Nat) :
    (t'.place d x : Int) = t.place d x - tally (t.before k x && t.lists d k) := by
  have hother : ∀ y, y ≠ k → t'.lists d y = t.lists d y := by
    intro y hy
    unfold FSMeta.lists
    rw [hd, if_neg (Ne.symm hy)]
  have hself : t'.lists d k = false := by
    unfold FSMeta.lists
    rw [hd, if_pos rfl]
  have hchange := rank_change (x := x) t.d.nodup hother
  have herase := rank_erase (p := t'.lists d) t.d.nodup hx
  rw [hself, Bool.and_false] at hchange herase
  unfold FSMeta.place FSMeta.before tally
  rw [hkeys]
  unfold Dict.keys
  simp only [Bool.false_eq_true, if_false] at hchange herase
  split <;> rename_i hb <;> simp only [hb, if_true, if_false, Bool.false_eq_true] at hchange <;> omega

end

/-! ## Calls -/

/-- A call of another process. -/
inductive TableCall where
  | create (a : CreateArgs) (now : Time)
  | unlink (inodeP : Nat) (name : Bytes)
  | rename (inodePOld : Nat) (nameOld : Bytes) (inodePNew : Nat) (nameNew : Bytes) (flags : Nat)
  | read (fh offset length : Nat) (now : Time)

/-- The read of a file without offsets takes it out of the table and sets it again. -/
def FSMeta.reinserts (t : FSMeta H) (fh : Nat) : Bool :=
  match t.d.get? fh with
  | some f => !f.data.isEmpty && f.offsets.isEmpty && decide (fh < 256 ^ 64)
  | none => false

/-- `_replace` hides the target, or deletes it. -/
def leaves (k : Nat) (f : FileInode H) : Bool := decide (0 ≤ f.lookupCount) || decide (k < 256 ^ 64)

namespace TableCall

def exec [DecidableEq H] (cfg : Config) (P : Packages H) (s : Fs H) : TableCall → Fs H
  | .create a now => (VeratyFS.create a now s).2
  | .unlink inodeP name => (VeratyFS.unlink inodeP name s).2
  | .rename inodePOld nameOld inodePNew nameNew flags =>
    (VeratyFS.rename inodePOld nameOld inodePNew nameNew flags s).2
  | .read fh offset length now => (VeratyFS.read cfg P fh offset length now s).2

/-- By how many places a call moves an inode in the listing of a directory. -/
def shift (t : FSMeta H) (d x : Nat) : TableCall → Int
  | .create _ _ => 0
  | .unlink inodeP name =>
    match findEntry t inodeP name with
    | some (k, f) => if S_ISDIR f.mode then 0 else -tally (t.before k x && t.lists d k)
    | none => 0
  | .rename inodePOld nameOld inodePNew nameNew flags =>
    if flags ≠ 0 then 0
    else
      match findEntry t inodePOld nameOld with
      | some (k, f) =>
        (if t.before k x then tally (decide (inodePNew = d)) - tally (decide (inodePOld = d)) else 0) -
          match findEntry (t.update k f.lookedUp) inodePNew nameNew with
          | some (k', g) => if leaves k' g then tally (t.before k' x && decide (inodePNew = d)) else 0
          | none => 0
      | none => 0
  | .read fh _ _ _ =>
    if t.reinserts fh then
      if x = fh then (dirEntries t d).length - 1 - t.place d fh
      else -tally (t.before fh x && t.lists d fh)
    else 0

/-- The call renames the entry of the inode, or takes it away. -/
def takes (t : FSMeta H) (x : Nat) : TableCall → Bool
  | .rename inodePOld nameOld inodePNew nameNew flags =>
    decide (flags = 0) &&
      match findEntry t inodePOld nameOld with
      | some (k, f) =>
        decide (x = k) && decide ((inodePOld, nameOld) ≠ (inodePNew, nameNew)) ||
          match findEntry (t.update k f.lookedUp) inodePNew nameNew with
          | some (k', g) => decide (x = k') && leaves k' g
          | none => false
      | none => false
  | _ => false

/-- The call moves no entry of the directory from one side of the offset to the other. -/
def keepsPlaces (t : FSMeta H) (d off : Nat) (e : TableCall) : Bool :=
  (t.d.keys.filter (t.lists d)).all fun x =>
    e.takes t x || decide (t.place d x < off ↔ (t.place d x : Int) + e.shift t d x < off)

end TableCall

/-! ## What the calls do to the listings -/

section

variable {s s' : Fs H} {d x : Nat} {n : Bytes} {f f' : FileInode H}

theorem CreateRun.place {a : CreateArgs} {now : Time} {r : Except PyError EntryAttributes}
    (h : CreateRun s a now r s') (hf : s.inodes.d.get? x = some f) (d : Nat) :
    s'.inodes.place d x = s.inodes.place d x := by
  cases h with
  | orphan parent => rfl
  | unlinkedParent parent links => rfl
  | @done _ ino parent links number =>
    have hnew : ino ∉ s.inodes.d.keys := fun hmem => by
      obtain ⟨g, hg⟩ := s.inodes.d.mem_keys_iff.mp hmem
      rw [number.unused] at hg
      cases hg
    have hother : ∀ y, y ≠ ino → (s.inodes.setItem ino (a.newInode ino now)).lists d y =
        s.inodes.lists d y := by
      intro y hy
      unfold FSMeta.lists
      rw [FSMeta.setItem_d_get?, if_neg (Ne.symm hy)]
    have hrank := rank_change (x := x) s.inodes.d.nodup hother
    refine ((SameListing.commit _).place d x).trans ?_
    unfold FSMeta.place
    rw [FSMeta.setItem_d, s.inodes.d.keys_set_of_not_mem _ hnew,
      rank_append (s.inodes.d.mem_keys_iff.mpr ⟨f, hf⟩)]
    unfold Dict.keys at hnew ⊢
    rw [precedes_of_not_mem hnew] at hrank
    exact hrank

theorem UnlinkRun.place {p : Nat} {m : Bytes} {r : Except PyError Unit} (h : UnlinkRun s p m r s')
    (d x : Nat) :
    (s'.inodes.place d x : Int) = s.inodes.place d x + (TableCall.unlink p m).shift s.inodes d x := by
  unfold TableCall.shift
  cases h with
  | missing found =>
    dsimp only
    rw [found]
    exact (Int.add_zero _).symm
  | directory found dir =>
    dsimp only
    rw [found]
    dsimp only
    rw [if_pos dir, Int.add_zero]
    exact congrArg _ ((SameListing.lookedUp (findEntry_some found).1).place d x)
  | @done k f found file =>
    have hk := (findEntry_some found).1
    have hlook := SameListing.lookedUp hk
    have hk₁ := FSMeta.get?_update_self (v := f.lookedUp) hk
    dsimp only
    rw [found]
    dsimp only
    rw [if_neg (by rw [file]; exact Bool.false_ne_true), Fs.withInodes_inodes,
      (SameListing.commit _).place, place_setItem hk₁, hlook.place, hlook.before, hlook.lists]
    have hhidden : (FileInode.unlinked f.lookedUp).listOnDirLookup = false := rfl
    rw [hhidden]
    unfold tally
    cases s.inodes.before k x <;> simp

/-- What a search has found stands in the listing of its directory. -/
theorem lists_found {t : FSMeta H} {p k : Nat} {m : Bytes} (found : findEntry t p m = some (k, f))
    (d : Nat) : t.lists d k = decide (p = d) := by
  obtain ⟨hget, hnamed⟩ := findEntry_some found
  obtain ⟨hparent, _, hvis⟩ := FileInode.named_iff.mp hnamed
  rw [lists_of hget, hparent, hvis]
  simp

theorem visible_moved {t t₂ : FSMeta H} {p k : Nat} {m : Bytes} {g v : FileInode H}
    (found : findEntry t p m = some (k, g)) (h : SameListing t t₂) (hv : t₂.d.get? k = some v) :
    v.listOnDirLookup = true := by
  have hlists := (h.lists p k).trans (lists_found found p)
  rw [lists_of hv] at hlists
  exact (of_decide_eq_true (hlists.trans (decide_eq_true rfl))).2

/-- A number without a database key is not taken out of the table. -/
theorem FSMeta.delItem_large (t : FSMeta H) {k : Nat} (h : ¬ k < 256 ^ 64) :
    (t.delItem k).2 = t := by
  have hnone : toBytes 64 k = none := Option.not_isSome_iff_eq_none.mp (mt toBytes_isSome.mp h)
  unfold delItem removeFromDisk
  rw [hnone]

/-- The table of a rename once its inode is moved, whatever was looked up before. -/
theorem place_moved (pNew : Nat) (nNew : Bytes) {t t₂ : FSMeta H} {pOld k : Nat} {nOld : Bytes}
    {g m : FileInode H}
    (found : findEntry t pOld nOld = some (k, g)) (h : SameListing t t₂) (hm : t₂.d.get? k = some m)
    (d x : Nat) :
    ((t₂.setItem k (m.movedTo pNew nNew)).place d x : Int) = t.place d x +
      if t.before k x then tally (decide (pNew = d)) - tally (decide (pOld = d)) else 0 := by
  have hvis := visible_moved found h hm
  have hvis' : (m.movedTo pNew nNew).listOnDirLookup = true := hvis
  have hparent : (m.movedTo pNew nNew).parentInode = pNew := rfl
  rw [place_setItem hm, h.place, h.before, h.lists, lists_found found d, hvis', hparent]
  simp

/-- The target of a rename is still listed in the new directory then. -/
theorem lists_target {t t₁ t₂ : FSMeta H} {pOld pNew k k' : Nat} {nOld nNew : Bytes}
    {g g' m : FileInode H} (found : findEntry t pOld nOld = some (k, g))
    (target : findEntry t₁ pNew nNew = some (k', g')) (h : SameListing t t₂)
    (h₁ : SameListing t₁ t₂) (hm : t₂.d.get? k = some m) (d : Nat) :
    (t₂.setItem k (m.movedTo pNew nNew)).lists d k' = decide (pNew = d) := by
  by_cases hk : k = k'
  · subst hk
    have hvis : m.listOnDirLookup = true := visible_moved found h hm
    have hvis' : (m.movedTo pNew nNew).listOnDirLookup = true := hvis
    have hparent : (m.movedTo pNew nNew).parentInode = pNew := rfl
    rw [lists_of (t₂.d.get?_set_self k _), hvis', hparent]
    simp
  · have hsame : (t₂.setItem k (m.movedTo pNew nNew)).lists d k' = t₂.lists d k' := by
      unfold FSMeta.lists
      rw [FSMeta.setItem_d_get?, if_neg hk]
    rw [hsame, h₁.lists, lists_found target]

/-- The inode of a rename, if it is still in sight, has the new name. -/
theorem RenameRun.renamed {pOld pNew flags k : Nat} {nOld nNew : Bytes} {g : FileInode H}
    {r : Except PyError Unit} (h : RenameRun s pOld nOld pNew nNew flags r s') (h0 : flags = 0)
    (found : findEntry s.inodes pOld nOld = some (k, g)) (hk : s'.inodes.d.get? k = some f')
    (hvis : f'.listOnDirLookup = true) : f'.parentInode = pNew ∧ f'.name = nNew := by
  cases h with
  | flags h => exact absurd h0 h
  | missing h missing =>
    rw [missing] at found
    cases found
  | moved h found' free =>
    rw [found'] at found
    cases found
    rw [Fs.withInodes_inodes, FSMeta.get?_commit_setItem] at hk
    cases hk
    exact ⟨rfl, rfl⟩
  | @replaced k₁ k' g₁ g' m e h found' target moved count deref =>
    rw [found'] at found
    cases found
    rw [Fs.withInodes_inodes, FSMeta.commit_d, FSMeta.setItem_d_get?] at hk
    split at hk
    · cases hk
      cases hvis
    · rw [FSMeta.setItem_d_get?, if_pos rfl] at hk
      cases hk
      exact ⟨rfl, rfl⟩
  | @deleted k₁ k' g₁ g' m h found' target moved count =>
    rw [found'] at found
    cases found
    rw [Fs.withInodes_inodes, FSMeta.commit_d] at hk
    rcases FSMeta.delItem_d_get? (((s.inodes.update k g.lookedUp).update k' g'.lookedUp).setItem k
      (m.movedTo pNew nNew)) k' k with e | ⟨_, e⟩
    · rw [e, FSMeta.setItem_d_get?, if_pos rfl] at hk
      cases hk
      exact ⟨rfl, rfl⟩
    · rw [e] at hk
      cases hk

/-- A rename that leaves the entry in sight with its name has neither moved nor replaced it. -/
theorem RenameRun.place {pOld pNew flags : Nat} {nOld nNew : Bytes} {r : Except PyError Unit}
    (h : RenameRun s pOld nOld pNew nNew flags r s') (hx : s.inodes.d.get? x = some f)
    (hn : f.named d n = true) (hx' : s'.inodes.d.get? x = some f') (hn' : f'.named d n = true) :
    (TableCall.rename pOld nOld pNew nNew flags).takes s.inodes x = false ∧
      (s'.inodes.place d x : Int) = s.inodes.place d x +
        (TableCall.rename pOld nOld pNew nNew flags).shift s.inodes d x := by
  obtain ⟨hparent, hname, _⟩ := FileInode.named_iff.mp hn
  obtain ⟨hparent', hname', hvis'⟩ := FileInode.named_iff.mp hn'
  have hmoved : ∀ k g, flags = 0 → findEntry s.inodes pOld nOld = some (k, g) →
      (decide (x = k) && decide ((pOld, nOld) ≠ (pNew, nNew))) = false := by
    intro k g h0 found
    by_cases hk : x = k
    · subst hk
      obtain ⟨hget, hold⟩ := findEntry_some found
      obtain ⟨hp, hm, _⟩ := FileInode.named_iff.mp hold
      obtain ⟨hp', hm'⟩ := h.renamed h0 found hx' hvis'
      rw [hx] at hget
      cases hget
      have hsame : (pOld, nOld) = (pNew, nNew) := by
        rw [← hp, ← hm, ← hp', ← hm', hparent, hname, hparent', hname']
      rw [decide_eq_false (not_not_intro hsame), Bool.and_false]
    · rw [decide_eq_false hk, Bool.false_and]
  unfold TableCall.takes TableCall.shift
  dsimp only
  cases h with
  | flags h =>
    rw [if_pos h, decide_eq_false h]
    exact ⟨rfl, (Int.add_zero _).symm⟩
  | missing h found =>
    rw [if_neg (not_not_intro h), found]
    exact ⟨Bool.and_false _, (Int.add_zero _).symm⟩
  | @moved k g h found free =>
    have hg := (findEntry_some found).1
    have hplace := place_moved pNew nNew found (SameListing.lookedUp hg)
      (FSMeta.get?_update_self hg) d x
    rw [if_neg (not_not_intro h), found]
    dsimp only
    rw [free, hmoved k g h found]
    refine ⟨Bool.and_false _, ?_⟩
    rw [Fs.withInodes_inodes, (SameListing.commit _).place, hplace]
    exact congrArg _ (Int.sub_zero _).symm
  | @replaced k k' g g' m e h found target moved count deref =>
    have hg := (findEntry_some found).1
    have hg' := (findEntry_some target).1
    have hlook := (SameListing.lookedUp hg).trans (SameListing.lookedUp hg')
    have hplace := place_moved pNew nNew found hlook moved d x
    have hleaves : leaves k' g' = true := by
      have hcount : 0 < g'.lookupCount + 1 := count
      unfold leaves
      rw [decide_eq_true (by omega : 0 ≤ g'.lookupCount), Bool.true_or]
    have hne : x ≠ k' := by
      rintro rfl
      rw [Fs.withInodes_inodes, FSMeta.get?_commit_setItem] at hx'
      cases hx'
      cases hvis'
    rw [if_neg (not_not_intro h), found]
    dsimp only
    rw [target, hmoved k g h found]
    dsimp only
    rw [hleaves, decide_eq_false hne, if_pos rfl]
    refine ⟨Bool.and_false _, ?_⟩
    have htarget := lists_target found target hlook (SameListing.lookedUp hg') moved d
    have hbefore : (((s.inodes.update k g.lookedUp).update k' g'.lookedUp).setItem k
        (m.movedTo pNew nNew)).before k' x = s.inodes.before k' x := by
      unfold FSMeta.before
      rw [keys_setItem moved, hlook.keys]
    have hhidden : e.hidden.listOnDirLookup = false := rfl
    rw [Fs.withInodes_inodes, (SameListing.commit _).place, place_setItem deref, hplace, hbefore,
      htarget, hhidden]
    cases s.inodes.before k' x with
    | false => simp [tally]
    | true =>
      simp [tally]
      omega
  | @deleted k k' g g' m h found target moved count =>
    have hg := (findEntry_some found).1
    have hg' := (findEntry_some target).1
    have hlook := (SameListing.lookedUp hg).trans (SameListing.lookedUp hg')
    have hplace := place_moved pNew nNew found hlook moved d x
    have htarget := lists_target found target hlook (SameListing.lookedUp hg') moved d
    have hleaves : leaves k' g' = decide (k' < 256 ^ 64) := by
      have hcount : ¬ 0 < g'.lookupCount + 1 := count
      unfold leaves
      rw [decide_eq_false (by omega : ¬ 0 ≤ g'.lookupCount), Bool.false_or]
    rw [if_neg (not_not_intro h), found]
    dsimp only
    rw [target, hmoved k g h found]
    dsimp only
    rw [hleaves]
    generalize ht₂ : (s.inodes.update k g.lookedUp).update k' g'.lookedUp = t₂ at *
    rw [Fs.withInodes_inodes, (SameListing.commit _).place]
    rw [Fs.withInodes_inodes, FSMeta.commit_d] at hx'
    by_cases hfit : k' < 256 ^ 64
    · have hthere : (t₂.setItem k (m.movedTo pNew nNew)).d.contains k' = true := by
        refine (Dict.contains_iff _).mpr ?_
        rw [FSMeta.setItem_d_get?]
        split
        · exact ⟨_, rfl⟩
        · exact ⟨_, ht₂ ▸ FSMeta.get?_update_self hg'⟩
      have hdel := FSMeta.delItem_d_get?_of_fits (toBytes_isSome.mpr hfit) hthere
      have hne : x ≠ k' := by
        rintro rfl
        rw [hdel, if_pos rfl] at hx'
        cases hx'
      have hkeys : ((t₂.setItem k (m.movedTo pNew nNew)).delItem k').2.d.keys =
          (t₂.setItem k (m.movedTo pNew nNew)).d.keys.erase k' := by
        rw [FSMeta.delItem_d _ (toBytes_isSome.mpr hfit) hthere, Dict.keys_erase]
      have hbefore : (t₂.setItem k (m.movedTo pNew nNew)).before k' x = s.inodes.before k' x := by
        unfold FSMeta.before
        rw [keys_setItem moved, hlook.keys]
      rw [decide_eq_false hne, decide_eq_true hfit, if_pos rfl, place_erase hkeys hdel hne, hplace,
        hbefore, htarget]
      refine ⟨Bool.and_false _, ?_⟩
      omega
    · rw [decide_eq_false hfit, FSMeta.delItem_large _ hfit, hplace]
      exact ⟨by simp, by simp⟩

/-- The table after `calc_offsets`: the inode has gone to the end. -/
theorem calcOffsets_keys {fh : Nat} (h : s.inodes.d.get? fh = some f) :
    (calcOffsets fh s).2.inodes.d.keys =
      if fh < 256 ^ 64 then s.inodes.d.keys.erase fh ++ [fh] else s.inodes.d.keys := by
  have hupdate := FSMeta.get?_update_self (v := f.withOffsets) h
  have hkeys : (s.inodes.update fh f.withOffsets).d.keys = s.inodes.d.keys := s.inodes.d.keys_modify fh _
  rw [calcOffsets_eq h]
  dsimp only
  rw [FSMeta.setItem_d]
  split
  · rename_i hfit
    have hthere : (s.inodes.update fh f.withOffsets).d.contains fh = true :=
      (Dict.contains_iff _).mpr ⟨_, hupdate⟩
    rw [FSMeta.delItem_d _ (toBytes_isSome.mpr hfit) hthere, Dict.keys_set_of_not_mem, Dict.keys_erase,
      hkeys]
    rw [Dict.keys_erase, hkeys]
    exact List.Nodup.not_mem_erase s.inodes.d.nodup
  · rename_i hfit
    rw [FSMeta.delItem_large _ hfit, Dict.keys_set_of_mem, hkeys]
    exact (Dict.mem_keys_iff _).mpr ⟨_, hupdate⟩

variable [DecidableEq H] {cfg : Config} {P : Packages H} {fh offset length : Nat} {now : Time}

theorem retrieveBlocks_keys (f : FileInode H) (s : Fs H) :
    (retrieveBlocks cfg P f offset length false s).2.inodes.d.keys = s.inodes.d.keys :=
  congrArg (fun t : FSMeta H => t.d.keys) (retrieveBlocks_inodes f offset length false s).symm

omit [DecidableEq H] in
theorem ensureOffsets_keys (h : s.inodes.d.get? fh = some f) :
    (ensureOffsets fh f s).2.inodes.d.keys =
      if f.offsets = [] ∧ fh < 256 ^ 64 then s.inodes.d.keys.erase fh ++ [fh] else s.inodes.d.keys := by
  unfold ensureOffsets
  by_cases hoffsets : f.offsets = []
  · rw [if_pos hoffsets]
    have hcalc := calcOffsets_keys h
    refine Eq.trans ?_ (hcalc.trans (if_congr (by simp [hoffsets]) rfl rfl))
    refine Py.stays_bind (I := fun t : Fs H => t.inodes.d.keys = (calcOffsets fh s).2.inodes.d.keys) rfl
      fun _ => ?_
    refine Py.keeps_bind (fun t ht => ?_) fun _ t ht => ?_
    · exact (congrArg Dict.keys t.inodes.commit_d).trans ht
    · exact (congrArg (fun t => t.inodes.d.keys) (inodeAt_keeps (R := Eq) fh t).symm).trans ht
  · rw [if_neg hoffsets, if_neg fun h => hoffsets h.1]
    rfl

/-- What a read does to the order of the table. -/
theorem retrieveData_keys (cfg : Config) (P : Packages H) (offset length : Nat)
    (h : s.inodes.d.get? fh = some f) :
    (retrieveData cfg P fh offset length false s).2.inodes.d.keys =
      if s.inodes.reinserts fh then s.inodes.d.keys.erase fh ++ [fh] else s.inodes.d.keys := by
  have hreinserts : s.inodes.reinserts fh =
      (!f.data.isEmpty && f.offsets.isEmpty && decide (fh < 256 ^ 64)) := by
    unfold FSMeta.reinserts
    rw [h]
  have hrun : retrieveData cfg P fh offset length false s = (if f.data = [] then return .data []
      else do
        let f ← ensureOffsets fh f
        retrieveBlocks cfg P f offset length false : Op H Retrieved) s := by
    have hread : (Py.read : Op H (Fs H)) s = (.ok s, s) := rfl
    unfold retrieveData
    rw [Py.run_bind_ok hread]
    unfold FSMeta.getItem?
    rw [h]
  rw [hrun, hreinserts]
  by_cases hdata : f.data = []
  · rw [if_pos hdata, hdata]
    rfl
  · rw [if_neg hdata]
    have hkeys := ensureOffsets_keys h
    refine Eq.trans ?_ (hkeys.trans (if_congr (by simp [hdata]) rfl rfl))
    refine Py.stays_bind (I := fun t : Fs H => t.inodes.d.keys = (ensureOffsets fh f s).2.inodes.d.keys) rfl
      fun f' t ht => ?_
    exact (retrieveBlocks_keys f' t).trans ht

theorem read_keys (cfg : Config) (P : Packages H) (offset length : Nat) (now : Time)
    (h : s.inodes.d.get? fh = some f) :
    (read cfg P fh offset length now s).2.inodes.d.keys =
      if s.inodes.reinserts fh then s.inodes.d.keys.erase fh ++ [fh] else s.inodes.d.keys := by
  rw [← retrieveData_keys cfg P offset length h]
  refine Py.stays_bind (I := fun t : Fs H => t.inodes.d.keys =
    (retrieveData cfg P fh offset length false s).2.inodes.d.keys) rfl fun r t ht => ?_
  cases hf : t.inodes.d.get? fh with
  | none =>
    rw [Py.run_bind_error (inodeAt_missing hf)]
    exact ht
  | some f' =>
    rw [Py.run_bind_ok (inodeAt_run hf)]
    exact (keys_setItem hf).trans ht

/-- A read does not change what a directory lists. -/
theorem read_lists (d x : Nat) :
    (read cfg P fh offset length now s).2.inodes.lists d x = s.inodes.lists d x := by
  have hread : Reread fh s _ := read_keeps cfg P fh offset length now s
  unfold FSMeta.lists
  by_cases hx : x = fh
  · subst hx
    rcases hread.self with ⟨h₁, h₂⟩ | ⟨f, f', h₁, h₂, ho⟩
    · rw [h₁, h₂]
    · rw [h₁, h₂, ho.eq]
  · rw [hread.others x hx]

theorem read_place (hs : SelfNumbered s.inodes) (hx : s.inodes.lists d x = true) :
    ((read cfg P fh offset length now s).2.inodes.place d x : Int) = s.inodes.place d x +
      (TableCall.read fh offset length now).shift s.inodes d x := by
  have hlists : (read cfg P fh offset length now s).2.inodes.lists d = s.inodes.lists d :=
    funext (read_lists d)
  unfold TableCall.shift
  dsimp only
  by_cases hre : s.inodes.reinserts fh = true
  · have hthere : ∃ f, s.inodes.d.get? fh = some f := by
      unfold FSMeta.reinserts at hre
      split at hre
      · exact ⟨_, by assumption⟩
      · cases hre
    obtain ⟨f, hf⟩ := hthere
    have hkeys := read_keys cfg P offset length now hf
    rw [if_pos hre] at hkeys ⊢
    unfold FSMeta.place
    rw [hkeys, hlists]
    split
    · subst x
      have hmem : fh ∈ s.inodes.d.keys.filter (s.inodes.lists d) :=
        List.mem_filter.mpr ⟨mem_keys_of_lists hx, hx⟩
      have hpos := List.length_pos_of_mem hmem
      have hgone : fh ∉ s.inodes.d.keys.erase fh := List.Nodup.not_mem_erase s.inodes.d.nodup
      rw [rank_last hgone, ← List.erase_filter,
        List.length_erase_of_mem hmem, length_dirEntries hs]
      omega
    · rename_i hne
      have herase := rank_erase (p := s.inodes.lists d) s.inodes.d.nodup hne
      rw [rank_append ((List.mem_erase_of_ne hne).mpr (mem_keys_of_lists hx))]
      unfold tally FSMeta.before
      unfold Dict.keys
      split at herase <;> rename_i hb
      · rw [if_pos hb]
        omega
      · rw [if_neg hb]
        omega
  · rw [if_neg hre]
    have hkeys : (read cfg P fh offset length now s).2.inodes.d.keys = s.inodes.d.keys := by
      cases hf : s.inodes.d.get? fh with
      | none => rw [read_missing hf]
      | some f => rw [read_keys cfg P offset length now hf, if_neg hre]
    unfold FSMeta.place
    rw [hkeys, hlists]
    exact (Int.add_zero _).symm

/-- **A call moves an entry as its shift says**, if it leaves it in sight. -/
theorem TableCall.place_exec {e : TableCall} (hs : SelfNumbered s.inodes)
    (hx : s.inodes.d.get? x = some f) (hn : f.named d n = true)
    (hx' : (e.exec cfg P s).inodes.d.get? x = some f') (hn' : f'.named d n = true) :
    e.takes s.inodes x = false ∧
      ((e.exec cfg P s).inodes.place d x : Int) = s.inodes.place d x + e.shift s.inodes d x := by
  cases e with
  | create a now =>
    have hplace := (create_run a now s).place hx d
    exact ⟨rfl, (congrArg _ hplace).trans (Int.add_zero _).symm⟩
  | unlink p m => exact ⟨rfl, (unlink_run hs p m).place d x⟩
  | rename pOld nOld pNew nNew flags => exact (rename_run hs pOld nOld pNew nNew flags).place hx hn hx' hn'
  | read fh offset length now => exact ⟨rfl, read_place hs (lists_named hx hn)⟩

/-- The calls leave the numbers in place. -/
theorem TableCall.selfNumbered (e : TableCall) (hs : SelfNumbered s.inodes) :
    SelfNumbered (e.exec cfg P s).inodes := by
  have moves : ∀ {q : Request} {r : Except PyError Reply} {s' : Fs H},
      Handled ⟨s, Dict.empty⟩ 0 q r s' → TableMoves s.inodes s'.inodes := fun h => h.moves hs
  cases e with
  | create a now => exact hs.moves (create_run a now s).moves
  | unlink p m => exact hs.moves (moves (.unlink (unlink_run hs p m)))
  | rename pOld nOld pNew nNew flags => 
    exact hs.moves (moves (.rename (rename_run hs pOld nOld pNew nNew flags)))
  | read fh offset length now =>
    intro k f hk
    have hread : Reread fh s _ := read_keeps cfg P fh offset length now s
    obtain ⟨g, hg, ho⟩ := hread.get? k f hk
    rw [ho.inode]
    exact hs k g hg

end

/-! ## Cycles -/

/-- An enumeration: the offset of the next `readdir`, and the names and numbers returned so far. -/
structure Cycle (H : Type) where
  fs : Fs H
  off : Nat
  replies : List (Bytes × Nat)
  ended : Bool

/-- The process enumerates on, or another one makes a call. -/
inductive Turn where
  | readdir
  | call (e : TableCall)

namespace Cycle

/-- The cycle begins at offset 0. -/
def start (s : Fs H) : Cycle H := ⟨s, 0, [], false⟩

/-- One `readdir`, from the offset of the last one; the cycle ends when no entry comes. -/
def next (d : Nat) (c : Cycle H) : Cycle H :=
  if c.ended then c
  else
    match VeratyFS.readdir d c.off c.fs with
    | (.ok (some (name, entry, off)), s) => ⟨s, off, c.replies ++ [(name, entry.stIno)], false⟩
    | (_, s) => ⟨s, c.off, c.replies, true⟩

def exec [DecidableEq H] (cfg : Config) (P : Packages H) (d : Nat) : Turn → Cycle H → Cycle H
  | .readdir, c => c.next d
  | .call e, c => { c with fs := e.exec cfg P c.fs }

/-- The inode is in sight under its name. -/
def shows (d : Nat) (n : Bytes) (x : Nat) (c : Cycle H) : Bool :=
  match c.fs.inodes.d.get? x with
  | some f => f.named d n
  | none => false

/-- Until the cycle ends, no call moves an entry across the offset. -/
def keepsPlaces (d : Nat) (c : Cycle H) : Turn → Bool
  | .readdir => true
  | .call e => c.ended || e.keepsPlaces c.fs.inodes d c.off

end Cycle

def cycles [DecidableEq H] (cfg : Config) (P : Packages H) (d : Nat) : System (Cycle H) Turn :=
  .ofFun (Cycle.exec cfg P d)

/-- The entry was returned once if its place is behind the offset, or if the cycle has ended, and
otherwise not at all. -/
structure ReturnedOnce (d : Nat) (n : Bytes) (x : Nat) (c : Cycle H) : Prop where
  selfNumbered : SelfNumbered c.fs.inodes
  running : c.ended = false → c.shows d n x = true →
    c.replies.count (n, x) = if c.fs.inodes.place d x < c.off then 1 else 0
  ended : c.ended = true → c.replies.count (n, x) = 1

section

variable {c c' : Cycle H} {d x : Nat} {n : Bytes}

theorem Cycle.shows_iff :
    c.shows d n x = true ↔ ∃ f, c.fs.inodes.d.get? x = some f ∧ f.named d n = true := by
  unfold shows
  cases c.fs.inodes.d.get? x with
  | none => simp
  | some f => simp

theorem ReturnedOnce.start {s : Fs H} (hs : SelfNumbered s.inodes) :
    ReturnedOnce d n x (Cycle.start s) := by
  refine ⟨hs, fun _ _ => ?_, fun h => ?_⟩
  · exact (if_neg (Nat.not_lt_zero _)).symm
  · cases h

theorem readdir_past {s : Fs H} {off : Nat} (listed : (dirEntries s.inodes d)[off]? = none) :
    readdir d off s = (.ok none, s) := by
  unfold readdir
  rw [Py.run_bind_ok (Py.run_read s), listed]
  rfl

theorem readdir_listed {s : Fs H} {off : Nat} {f : FileInode H} (hs : SelfNumbered s.inodes)
    (listed : (dirEntries s.inodes d)[off]? = some f) :
    readdir d off s = (.ok (some (f.name, f.attributes f.inode, off + 1)), s) := by
  unfold readdir
  rw [Py.run_bind_ok (Py.run_read s), listed]
  exact Py.run_bind_ok (getattr_run (dirEntries_getElem? hs listed).1)

/-- **One `readdir`** returns the entry if the offset has reached its place. -/
theorem ReturnedOnce.next (h : ReturnedOnce d n x c) (hshows : c.ended = false → c.shows d n x = true) :
    ReturnedOnce d n x (c.next d) := by
  unfold Cycle.next
  by_cases hended : c.ended = true
  · rw [if_pos hended]
    exact h
  rw [if_neg hended]
  have hrunning := Bool.eq_false_iff.mpr hended
  have hcount := h.running hrunning (hshows hrunning)
  obtain ⟨f, hf, hn⟩ := Cycle.shows_iff.mp (hshows hrunning)
  have hlists := lists_named hf hn
  cases hlisted : (dirEntries c.fs.inodes d)[c.off]? with
  | none =>
    rw [readdir_past hlisted]
    have hlt := place_lt_length h.selfNumbered hlists
    have hle := List.getElem?_eq_none_iff.mp hlisted
    refine ⟨h.selfNumbered, (fun h => by cases h), fun _ => ?_⟩
    exact hcount.trans (if_pos (by omega))
  | some g =>
    rw [readdir_listed h.selfNumbered hlisted]
    refine ⟨h.selfNumbered, fun _ _ => ?_, (fun h => by cases h)⟩
    obtain ⟨hg, hglists, hgplace⟩ := dirEntries_getElem? h.selfNumbered hlisted
    dsimp only
    rw [List.count_append, hcount]
    by_cases hx : g.inode = x
    · -- it is the entry itself
      rw [hx] at hg hgplace
      have hsame : f = g := Option.some.inj (hf.symm.trans hg)
      have hname : g.name = n := hsame ▸ (FileInode.named_iff.mp hn).2.1
      have hreply : (g.name, (g.attributes g.inode).stIno) = (n, x) := Prod.ext hname hx
      rw [hreply, List.count_singleton_self, hgplace, if_neg (Nat.lt_irrefl _),
        if_pos (Nat.lt_succ_self _)]
    · have hplace : c.fs.inodes.place d x ≠ c.off := fun e =>
        hx (place_inj hglists hlists (hgplace.trans e.symm))
      have hreply : (g.name, (g.attributes g.inode).stIno) ≠ (n, x) := fun e =>
        hx (congrArg Prod.snd e)
      have hnone : [(g.name, (g.attributes g.inode).stIno)].count (n, x) = 0 :=
        List.count_eq_zero.mpr (mt List.mem_singleton.mp (Ne.symm hreply))
      rw [hnone]
      exact if_congr (by omega) rfl rfl

variable [DecidableEq H] {cfg : Config} {P : Packages H}

/-- **One turn**, of a call that keeps the places on their sides. -/
theorem ReturnedOnce.exec (h : ReturnedOnce d n x c) (t : Turn)
    (hshows : c.ended = false → c.shows d n x = true) (hplaces : c.keepsPlaces d t = true) :
    ReturnedOnce d n x (c.exec cfg P d t) := by
  cases t with
  | readdir => exact h.next hshows
  | call e =>
    refine ⟨e.selfNumbered h.selfNumbered, fun hrunning hshows' => ?_, h.ended⟩
    obtain ⟨f, hf, hn⟩ := Cycle.shows_iff.mp (hshows hrunning)
    obtain ⟨f', hf', hn'⟩ := Cycle.shows_iff.mp hshows'
    obtain ⟨htakes, hplace⟩ := TableCall.place_exec h.selfNumbered hf hn hf' hn'
    have hrunning : c.ended = false := hrunning
    have hall : e.keepsPlaces c.fs.inodes d c.off = true := by
      unfold Cycle.keepsPlaces at hplaces
      dsimp only at hplaces
      rw [hrunning, Bool.false_or] at hplaces
      exact hplaces
    have hlists := lists_named hf hn
    have hside := List.all_eq_true.mp hall x (List.mem_filter.mpr ⟨mem_keys_of_lists hlists, hlists⟩)
    rw [htakes, Bool.false_or, ← hplace] at hside
    refine (h.running hrunning (hshows hrunning)).trans (if_congr ?_ rfl rfl)
    show _ ↔ (e.exec cfg P c.fs).inodes.place d x < c.off
    exact (of_decide_eq_true hside).trans Int.ofNat_lt

/-- **What is visible during a whole cycle is returned exactly once**, if no call moves an entry of
the directory from one side of the offset to the other. -/
theorem readdir_once {s : Fs H} {ts : List Turn} (hs : SelfNumbered s.inodes)
    (hrun : ((cycles cfg P d).meeting fun c t =>
      ((c.ended || c.shows d n x) && c.keepsPlaces d t) = true).Run (.start s) ts c)
    (hended : c.ended = true) : c.replies.count (n, x) = 1 := by
  have hinv : ReturnedOnce d n x c := by
    refine hrun.invariant (I := ReturnedOnce d n x) ?_ (.start hs)
    rintro c t _ h ⟨rfl, hc⟩
    obtain ⟨hshows, hplaces⟩ := Bool.and_eq_true_iff.mp hc
    refine h.exec t (fun hrunning => ?_) hplaces
    rw [hrunning, Bool.false_or] at hshows
    exact hshows
  exact hinv.ended hended

end

/-- Two files in the root directory, which lists itself first. -/
def twoFiles : Fs Bytes :=
  (System.after (Session.exec .shipped) sampleSession
    [⟨.create ⟨1, [97], 33188, 0, 0, 0, none⟩, fun _ _ => 0⟩,
      ⟨.create ⟨1, [98], 33188, 0, 0, 0, none⟩, fun _ _ => 0⟩]).vfs.fs

/-- The first file has been returned; a third one is made, and the second one is removed. -/
def otherCalls : List Turn :=
  [.readdir, .readdir, .call (.create ⟨1, [99], 33188, 0, 0, 0, none⟩ 0), .call (.unlink 1 [98]),
    .readdir, .readdir]

theorem twoFiles_selfNumbered : SelfNumbered twoFiles.inodes := by
  have hall : ∀ e ∈ twoFiles.inodes.d.entries, e.2.inode = e.1 := by decide
  exact fun k f hk => hall (k, f) ((Dict.mem_entries_iff _).mpr hk)

theorem readdir_once_sample :
    (System.after (Cycle.exec .shipped .plain 1) (.start twoFiles) otherCalls).replies.count ([97], 2) = 1 :=
  readdir_once twoFiles_selfNumbered
    (System.run_meeting_after (Cycle.exec .shipped .plain 1)
      (fun c t => (c.ended || c.shows 1 [97] 2) && c.keepsPlaces 1 t) otherCalls (.start twoFiles)
      (by decide)) (by decide)

/-- The first file is removed once it has been returned, and the second one is skipped. -/
theorem unlink_skips :
    ¬ ∀ (s : Fs Bytes) (ts : List Turn) (c : Cycle Bytes) (n : Bytes) (x : Nat), SelfNumbered s.inodes →
      ((cycles .shipped .plain 1).meeting fun c _ => (c.ended || c.shows 1 n x) = true).Run (.start s) ts c →
      c.ended = true → c.replies.count (n, x) = 1 := by
  intro h
  have hrun := System.run_meeting_after (Cycle.exec .shipped .plain 1)
    (fun c _ => c.ended || c.shows 1 [98] 3) [.readdir, .readdir, .call (.unlink 1 [97]), .readdir]
    (.start twoFiles) (by decide)
  have honce := h _ _ _ [98] 3 twoFiles_selfNumbered hrun (by decide)
  exact absurd honce (by decide)

end VeratyFS
