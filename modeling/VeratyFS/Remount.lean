import VeratyFS.DurableInodes
import VeratyFS.Session

/-!
# Remounting

Does a reload show the names that were visible before?

* `Opened` — the table of a new session: loaded from the databases, or a new root over empty ones.
* `Recorded` — an inode that is not pending has a record that loads to the same inode.
* `remount_spec` — in every session, the table loaded after a commit is the table, reset.
* `remount_visible` — so the same entries are visible exactly when none was hidden.
* `remount_resurrects` — an unlinked file is back after the mount.
-/

set_option autoImplicit false
set_option maxRecDepth 1024

namespace VeratyFS

open Pylib

variable {H : Type} {t t' : FSMeta H}

/-- A visible entry: directory, name and inode. -/
def VisibleEntry (t : FSMeta H) (p : Nat) (n : Bytes) (i : Nat) : Prop :=
  ∃ k f, t.d.get? k = some f ∧ f.named p n = true ∧ f.inode = i

def NoHidden (t : FSMeta H) : Prop := ∀ k f, t.d.get? k = some f → f.listOnDirLookup = true

/-- No directory shows two entries with one name. -/
def UniqueNames (t : FSMeta H) : Prop :=
  ∀ k k' f f' p n, t.d.get? k = some f → t.d.get? k' = some f' → f.named p n = true →
    f'.named p n = true → k = k'

/-- The table of a new session. -/
inductive Opened : FSMeta H → Prop
  | loaded {t : FSMeta H} (mounted : t.Mounted) (self : SelfNumbered t) : Opened t
  | created {t : FSMeta H} (mounted : t.Mounted) (empty : ∀ k, t.d.get? k = none) (uid gid : Nat)
      (now : Time) : Opened (initFileSystem uid gid now t)

/-- Every inode number fits its key. -/
def Fits (t : FSMeta H) : Prop := ∀ k f, t.d.get? k = some f → (toBytes 64 k).isSome

/-! ## Records -/

structure Recorded (t : FSMeta H) : Prop where
  keyed : Keyed t.ht
  pending : ∀ k f, t.pending.get? k = some f → t.d.get? k = some f
  records : ∀ k, t.pending.get? k = none →
    (decoded t.ht k).map FileInode.reloaded = (t.d.get? k).map FileInode.reloaded

theorem FSMeta.Mounted.recorded (h : t.Mounted) : Recorded t := by
  have hp : ∀ k, t.pending.get? k = none := by
    rw [h.pending]
    intro k
    rfl
  refine ⟨h.keyed, fun k f hk => ?_, fun k _ => ?_⟩
  · rw [hp] at hk
    cases hk
  · rw [h.d, Option.map_map]
    rfl

/-- A number that does not fit stays in the table. -/
theorem TableMove.fits (h : TableMove t t') (ht : Fits t') : Fits t := by
  intro x g hg
  cases h with
  | @count k f c found =>
    by_cases e : k = x
    · exact ht x _ (by rw [FSMeta.update_d_get?_of found, if_pos e])
    · exact ht x g (by rw [FSMeta.update_d_get?_of found, if_neg e, hg])
  | @set k v self =>
    by_cases e : k = x
    · exact ht x v (by rw [FSMeta.setItem_d_get?, if_pos e])
    · exact ht x g (by rw [FSMeta.setItem_d_get?, if_neg e, hg])
  | @delete k =>
    rcases t.delItem_d_get? k x with e | ⟨rfl, e⟩
    · exact ht x g (e.trans hg)
    · cases hn : toBytes 64 k with
      | some n => rfl
      | none =>
        have hsame : (t.delItem k).2 = t := by
          unfold FSMeta.delItem FSMeta.removeFromDisk
          rw [hn]
        rw [hsame, hg] at e
        cases e
  | commit => exact ht x g (by rw [FSMeta.commit_d, hg])

theorem Recorded.setItem (h : Recorded t) (k : Nat) (v : FileInode H) :
    Recorded (t.setItem k v) := by
  have hp : ∀ x, (t.setItem k v).pending.get? x = if k = x then some v else t.pending.get? x :=
    fun x => t.pending.get?_set k x v
  refine ⟨h.keyed, fun x f hx => ?_, fun x hx => ?_⟩
  · rw [hp] at hx
    rw [FSMeta.setItem_d_get?]
    split at hx
    · rename_i e
      rw [if_pos e, hx]
    · rename_i e
      rw [if_neg e]
      exact h.pending x f hx
  · rw [hp] at hx
    split at hx
    · cases hx
    · rename_i e
      rw [FSMeta.setItem_d_get?, if_neg e]
      exact h.records x hx

theorem Recorded.count (h : Recorded t) {k : Nat} {f : FileInode H} (hk : t.d.get? k = some f)
    (c : Int) : Recorded (t.update k { f with lookupCount := c }) := by
  have hp : ∀ x, (t.update k { f with lookupCount := c }).pending.get? x =
      if k = x then (t.pending.get? x).map fun _ => { f with lookupCount := c }
      else t.pending.get? x :=
    fun x => t.pending.get?_modify k x _
  refine ⟨h.keyed, fun x g hx => ?_, fun x hx => ?_⟩
  · rw [hp] at hx
    rw [FSMeta.update_d_get?_of hk]
    split at hx
    · rename_i e
      obtain ⟨_, _, rfl⟩ := Option.map_eq_some_iff.mp hx
      rw [if_pos e]
    · rename_i e
      rw [if_neg e]
      exact h.pending x g hx
  · rw [hp] at hx
    rw [FSMeta.update_d_get?_of hk]
    split at hx
    · rename_i e
      subst e
      rw [if_pos rfl]
      have hr := h.records k (Option.map_eq_none_iff.mp hx)
      rw [hk] at hr
      exact hr
    · rename_i e
      rw [if_neg e]
      exact h.records x hx

theorem Recorded.delItem (h : Recorded t) (k : Nat) : Recorded (t.delItem k).2 := by
  cases hn : toBytes 64 k with
  | none =>
    have hsame : (t.delItem k).2 = t := by
      unfold FSMeta.delItem FSMeta.removeFromDisk
      rw [hn]
    rw [hsame]
    exact h
  | some n =>
    have hparts : (t.delItem k).2.ht = t.ht.erase n ∧
        (t.delItem k).2.pending = t.pending.erase k ∧
        ∀ x, (t.delItem k).2.d.get? x = if k = x then none else t.d.get? x := by
      unfold FSMeta.delItem FSMeta.removeFromDisk
      rw [hn]
      dsimp only
      split
      · exact ⟨rfl, rfl, fun x => t.d.get?_erase k x⟩
      · rename_i hc
        refine ⟨rfl, rfl, fun x => ?_⟩
        show t.d.get? x = if k = x then none else t.d.get? x
        by_cases e : k = x
        · rw [if_pos e, ← e]
          exact (Dict.contains_eq_false _).mp (Bool.eq_false_iff.mpr hc)
        · rw [if_neg e]
    obtain ⟨hht, hpend, hd⟩ := hparts
    refine ⟨by rw [hht]; exact h.keyed.erase n, fun x f hx => ?_, fun x hx => ?_⟩
    · rw [hpend, Dict.get?_erase] at hx
      rw [hd]
      split at hx
      · cases hx
      · rename_i e
        rw [if_neg e]
        exact h.pending x f hx
    · rw [hpend, Dict.get?_erase] at hx
      rw [hht, decoded_erase hn, hd]
      by_cases e : k = x
      · rw [if_pos e, if_pos e]
      · rw [if_neg e] at hx
        rw [if_neg e, if_neg e]
        exact h.records x hx

theorem Recorded.commit (h : Recorded t) (hfits : Fits t) : Recorded t.commit := by
  obtain ⟨l, hl, hkeyed, hdecoded⟩ :=
    batch_pending (fun k f hk => hfits k f (h.pending k f hk)) h.keyed
  have hparts : t.commit.ht = l.foldl (fun d e => d.set e.1 e.2) t.ht ∧
      t.commit.pending = Dict.empty := by
    unfold FSMeta.commit FSMeta.batchSaveToDisk
    rw [hl]
    exact ⟨rfl, rfl⟩
  refine ⟨by rw [hparts.1]; exact hkeyed, fun k f hk => ?_, fun k _ => ?_⟩
  · rw [hparts.2] at hk
    cases hk
  · rw [hparts.1, hdecoded, FSMeta.commit_d]
    cases hp : t.pending.get? k with
    | none => exact h.records k hp
    | some f =>
      rw [h.pending k f hp]
      rfl

/-- **Every move keeps the records**, as long as the numbers fit. -/
theorem TableMove.recorded (h : TableMove t t') (ht : Recorded t) (hfits : Fits t) :
    Recorded t' := by
  cases h with
  | count found => exact ht.count found _
  | set self => exact ht.setItem _ _
  | delete => exact ht.delItem _
  | commit => exact ht.commit hfits

theorem Recorded.moves (h : Fits t → Recorded t) (hm : TableMoves t t') :
    Fits t' → Recorded t' := by
  refine hm.invariant (I := fun t => Fits t → Recorded t) (fun t t' hstep ht hfits => ?_) h
  exact hstep.recorded (ht (hstep.fits hfits)) (hstep.fits hfits)

theorem Opened.recorded (h : Opened t) : Recorded t := by
  cases h with
  | loaded mounted self => exact mounted.recorded
  | created mounted empty uid gid now => exact mounted.recorded.setItem _ _

theorem Opened.selfNumbered (h : Opened t) : SelfNumbered t := by
  cases h with
  | loaded mounted self => exact self
  | created mounted empty uid gid now =>
    intro k f hk
    unfold initFileSystem at hk
    rw [FSMeta.setItem_d_get?] at hk
    split at hk
    · rename_i e
      cases hk
      exact e
    · rw [empty] at hk
      cases hk

/-! ## Sessions -/

variable [DecidableEq H] {cfg : Config} {s s' : Session H} {cs : List Call}

/-- **What a remount loads** is the table with its volatile fields reset. -/
theorem remount_spec (hopen : Opened s.inodes) (hrun : (sessions cfg).Run s cs s')
    (hfits : Fits s'.inodes) (k : Nat) :
    s'.inodes.commit.initFromDisk.d.get? k = (s'.inodes.d.get? k).map FileInode.reloaded := by
  have hinv : SelfNumbered s'.inodes ∧ (Fits s'.inodes → Recorded s'.inodes) := by
    refine hrun.invariant (I := fun s => SelfNumbered s.inodes ∧ (Fits s.inodes → Recorded s.inodes))
      ?_ ⟨hopen.selfNumbered, fun _ => hopen.recorded⟩
    rintro s c _ ⟨hself, hrec⟩ rfl
    refine ⟨Session.selfNumbered_exec hself c, ?_⟩
    exact Recorded.moves hrec ((handle_run cfg c.clock c.request hself).moves hself)
  have hc := (hinv.2 hfits).commit hfits
  have hempty : s'.inodes.commit.pending.get? k = none := by
    unfold FSMeta.commit FSMeta.batchSaveToDisk
    split <;> rfl
  rw [initFromDisk_d_get? hc.keyed, hc.records k hempty, FSMeta.commit_d]

omit [DecidableEq H] in
/-- A reload shows every inode. -/
theorem visibleEntry_reload {t t' : FSMeta H}
    (hd : ∀ k, t'.d.get? k = (t.d.get? k).map FileInode.reloaded) (p : Nat) (n : Bytes) (i : Nat) :
    VisibleEntry t' p n i ↔
      ∃ k f, t.d.get? k = some f ∧ f.parentInode = p ∧ f.name = n ∧ f.inode = i := by
  constructor
  · rintro ⟨k, f, hk, hf, hi⟩
    rw [hd] at hk
    obtain ⟨g, hg, rfl⟩ := Option.map_eq_some_iff.mp hk
    obtain ⟨hparent, hname, _⟩ := FileInode.named_iff.mp hf
    exact ⟨k, g, hg, hparent, hname, hi⟩
  · rintro ⟨k, f, hk, hparent, hname, hi⟩
    refine ⟨k, f.reloaded, ?_, FileInode.named_iff.mpr ⟨hparent, hname, rfl⟩, hi⟩
    rw [hd, hk]
    rfl

/-- **A remount preserves the visible entries exactly when none is hidden**; and then the names stay
unique. -/
theorem remount_visible (hopen : Opened s.inodes) (hrun : (sessions cfg).Run s cs s')
    (hfits : ∀ k f, s'.inodes.d.get? k = some f → k < 256 ^ 64) :
    ((∀ p n i, VisibleEntry s'.inodes.commit.initFromDisk p n i ↔ VisibleEntry s'.inodes p n i) ↔
      NoHidden s'.inodes) ∧
    (NoHidden s'.inodes → UniqueNames s'.inodes → UniqueNames s'.inodes.commit.initFromDisk) := by
  have hself : SelfNumbered s'.inodes := Session.selfNumbered_run hopen.selfNumbered hrun
  have hload := remount_spec hopen hrun fun k f hk => toBytes_isSome.mpr (hfits k f hk)
  refine ⟨⟨fun hsame k f hk => ?_, fun hvisible p n i => ?_⟩, fun hvisible hunique => ?_⟩
  · obtain ⟨k', f', hk', hf', hi⟩ := (hsame f.parentInode f.name f.inode).mp
      ((visibleEntry_reload hload _ _ _).mpr ⟨k, f, hk, rfl, rfl, rfl⟩)
    have hkk : k' = k := (hself k' f' hk').symm.trans (hi.trans (hself k f hk))
    rw [hkk, hk] at hk'
    cases hk'
    exact (FileInode.named_iff.mp hf').2.2
  · rw [visibleEntry_reload hload]
    constructor
    · rintro ⟨k, f, hk, hparent, hname, hi⟩
      exact ⟨k, f, hk, FileInode.named_iff.mpr ⟨hparent, hname, hvisible k f hk⟩, hi⟩
    · rintro ⟨k, f, hk, hf, hi⟩
      obtain ⟨hparent, hname, _⟩ := FileInode.named_iff.mp hf
      exact ⟨k, f, hk, hparent, hname, hi⟩
  · intro k k' f f' p n hk hk' hf hf'
    rw [hload] at hk hk'
    obtain ⟨g, hg, rfl⟩ := Option.map_eq_some_iff.mp hk
    obtain ⟨g', hg', rfl⟩ := Option.map_eq_some_iff.mp hk'
    obtain ⟨hparent, hname, _⟩ := FileInode.named_iff.mp hf
    obtain ⟨hparent', hname', _⟩ := FileInode.named_iff.mp hf'
    exact hunique k k' g g' p n hg hg' (FileInode.named_iff.mpr ⟨hparent, hname, hvisible k g hg⟩)
      (FileInode.named_iff.mpr ⟨hparent', hname', hvisible k' g' hg'⟩)

/-- A new file system. -/
def sampleSession : Session Bytes := .fresh 1 Nat.one_pos [.fresh 0, .fresh 1] [.fresh 0]

theorem sampleSession_opened : Opened sampleSession.inodes :=
  .created ⟨rfl, fun _ _ h => (by cases h), fun k => (by
    show none = (decoded Dict.empty k).map FileInode.reloaded
    unfold decoded
    cases toBytes 64 k <;> rfl), fun _ => ⟨fun _ _ h => (by cases h), fun _ => rfl⟩⟩
    (fun _ => rfl) 0 0 0

/-- A file and its removal, forgotten by the kernel. -/
def forgottenCalls : List Call :=
  [⟨.create ⟨1, [97], 33188, 0, 0, 0, none⟩, fun _ _ => 0⟩, ⟨.unlink 1 [97], fun _ _ => 0⟩,
    ⟨.forget [(2, 1)], fun _ _ => 0⟩, ⟨.mkdir ⟨1, [98], 16877, 0, 0, 0, none⟩, fun _ _ => 0⟩]

theorem remount_visible_sample :
    let t := (System.after (Session.exec .shipped) sampleSession forgottenCalls).inodes
    ((∀ p n i, VisibleEntry t.commit.initFromDisk p n i ↔ VisibleEntry t p n i) ↔ NoHidden t) ∧
    (NoHidden t → UniqueNames t → UniqueNames t.commit.initFromDisk) := by
  refine remount_visible sampleSession_opened
    (System.run_after (Session.exec .shipped) forgottenCalls sampleSession) fun k f hk => ?_
  have hkeys : ∀ e ∈ (System.after (Session.exec .shipped) sampleSession
      forgottenCalls).inodes.d.entries, e.1 < 256 ^ 64 := by
    decide +kernel
  exact hkeys (k, f) ((Dict.mem_entries_iff _).mpr hk)

/-- A file, its removal, and a new file with its name. -/
def recreatedCalls : List Call :=
  [⟨.create ⟨1, [97], 33188, 0, 0, 0, none⟩, fun _ _ => 0⟩, ⟨.unlink 1 [97], fun _ _ => 0⟩,
    ⟨.create ⟨1, [97], 33188, 0, 0, 0, none⟩, fun _ _ => 0⟩]

/-- The mount shows the removed file again, beside the new one. -/
theorem remount_resurrects :
    (¬ ∀ (s s' : Session Bytes) (cs : List Call), Opened s.inodes →
      (sessions .shipped).Run s cs s' → (∀ k f, s'.inodes.d.get? k = some f → k < 256 ^ 64) →
        ∀ p n i, VisibleEntry s'.inodes.commit.initFromDisk p n i ↔ VisibleEntry s'.inodes p n i) ∧
    ((System.after (Session.exec .shipped) sampleSession
      recreatedCalls).inodes.commit.initFromDisk.d.entries.countP fun e => e.2.named 1 [97]) = 2 := by
  refine ⟨fun h => ?_, by decide⟩
  have hrun := System.run_after (Session.exec .shipped) recreatedCalls sampleSession
  have hfits : ∀ e ∈ (System.after (Session.exec .shipped) sampleSession
      recreatedCalls).inodes.d.entries, e.1 < 256 ^ 64 := by
    decide
  have hgone : ∀ e ∈ (System.after (Session.exec .shipped) sampleSession
      recreatedCalls).inodes.d.entries, e.2.named 1 [97] = true → e.2.inode ≠ 2 := by
    decide
  have hback : ∃ e ∈ (System.after (Session.exec .shipped) sampleSession
      recreatedCalls).inodes.commit.initFromDisk.d.entries,
      e.2.named 1 [97] = true ∧ e.2.inode = 2 := by
    decide
  obtain ⟨⟨k, f⟩, hmem, hf, hi⟩ := hback
  obtain ⟨k', f', hk', hf', hi'⟩ := (h _ _ recreatedCalls sampleSession_opened hrun
    (fun k f hk => hfits (k, f) ((Dict.mem_entries_iff _).mpr hk)) 1 [97] 2).mp
    ⟨k, f, (Dict.mem_entries_iff _).mp hmem, hf, hi⟩
  exact hgone (k', f') ((Dict.mem_entries_iff _).mpr hk') hf' hi'

end VeratyFS
