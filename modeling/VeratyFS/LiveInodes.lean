import VeratyFS.LiveRecords
import VeratyFS.Remount

/-!
# The records of live inodes

Does the database keep the record of an inode until the user removes it, whenever the process dies?

* `Operation.spares` — the operation computes no offsets of a live inode that has a record.
* `Operation.removes` — the user removes the inode.
* `Operation.traffic_live` — what every operation keeps.
* `live_inodes_durable` — runs of operations that spare the records.
* `read_exposes` — a read takes the record of its file away until the next commit.
-/

set_option autoImplicit false
set_option maxRecDepth 1024

namespace VeratyFS

open Pylib

variable {H : Type}

/-! ## Requests -/

/-- The inode is live, and had its record at every point. -/
abbrev LiveKept (k : Nat) : Observed (Fs H) (MetaStore H) → Prop :=
  Py.Always (fun s => Live s.inodes k) (HasRecord · k)

section

variable {k p x : Nat} {n : Bytes} {s : Fs H} {f v : FileInode H}

theorem Live.set (h : Live s.inodes k) (hx : s.inodes.d.get? x = some f)
    (hv : v.stNlink = f.stNlink) : Live (s.inodes.setItem x v) k := ⟨h.record, h.links.reset hx hv⟩

theorem Live.add (h : Live s.inodes k) (hx : x ≠ k) : Live (s.inodes.setItem x v) k :=
  ⟨h.record, h.links.setItem fun e => absurd e hx⟩

theorem Live.commit {t : FSMeta H} (h : Live t k) : Live t.commit k :=
  ⟨h.record.commit, h.links.commit⟩

theorem Live.delItem {t : FSMeta H} (h : Live t k) (hx : x ≠ k) : Live (t.delItem x).2 k :=
  ⟨h.record.delItem hx, h.links.delItem hx⟩

theorem commitInodes_live : Py.Keeps (Py.Stays fun s : Fs H => Live s.inodes k) commitInodes :=
  fun _ h => Live.commit h

/-- A search finds nothing, or counts a lookup of the inode that it finds. -/
theorem lookup_cases (p : Nat) (n : Bytes) (s : Fs H) :
    (findEntry s.inodes p n = none ∧ Fs.lookup p n s = (.error (.fuseError .ENOENT), s)) ∨
    ∃ x f, findEntry s.inodes p n = some (x, f) ∧
      (Fs.lookup p n s).2 = s.withInodes (s.inodes.update x f.lookedUp) ∧
      ∀ e, (Fs.lookup p n s).1 = .ok e → e.stIno = f.inode ∧
        (Fs.lookup p n s).2.inodes.d.contains e.stIno = true := by
  cases hfind : findEntry s.inodes p n with
  | none => exact .inl ⟨rfl, lookup_missing hfind⟩
  | some e =>
    obtain ⟨x, f⟩ := e
    right
    have hrun : Fs.lookup p n s =
        getattr f.inode (s.withInodes (s.inodes.update x f.lookedUp)) := by
      unfold Fs.lookup
      rw [Py.run_bind_ok (Py.run_read s), hfind]
      rfl
    refine ⟨x, f, rfl, ?_, fun e he => ?_⟩
    · rw [hrun, getattr_state]
    · rw [hrun] at he ⊢
      cases hg : (s.withInodes (s.inodes.update x f.lookedUp)).inodes.d.get? f.inode with
      | none =>
        rw [getattr_missing hg] at he
        cases he
      | some g =>
        rw [getattr_run hg] at he ⊢
        cases he
        exact ⟨rfl, (Dict.contains_iff _).mpr ⟨g, hg⟩⟩

theorem lookup_live (p : Nat) (n : Bytes) :
    Py.Keeps (Py.Stays fun s : Fs H => Live s.inodes k) (Fs.lookup p n) := by
  intro s h
  rcases lookup_cases p n s with ⟨_, e⟩ | ⟨x, f, hfind, e, _⟩
  · rw [e]
    exact h
  · rw [e]
    exact ⟨h.record, h.links.update (findEntry_some hfind).1⟩

theorem create_live (a : CreateArgs) (now : Time) :
    Py.Keeps (Py.Stays fun s : Fs H => Live s.inodes k) (create a now) := by
  intro s h
  rcases create_cases a now s with e | ⟨ino, f, hnext, _, _, _, e⟩
  · rw [e]
    exact h
  · rw [e]
    obtain ⟨g, hg, _⟩ := h.links
    exact (h.add (hnext.ne hg)).commit

theorem link_live (inode newInodeP : Nat) (newName : Bytes) (now : Time) :
    Py.Keeps (Py.Stays fun s : Fs H => Live s.inodes k) (link inode newInodeP newName now) := by
  intro s h
  obtain ⟨g, hg, hlinks⟩ := h.links
  have hrun := link_run inode newInodeP newName now s
  show Live (link inode newInodeP newName now s).2.inodes k
  generalize link inode newInodeP newName now s = out at hrun ⊢
  obtain ⟨r, s'⟩ := out
  cases hrun with
  | orphan parent => exact h
  | unlinkedParent parent links => exact h
  | dangling parent links number target => exact h.add (number.ne hg)
  | @done q f ni parent links number target =>
    have hnew : Live (s.inodes.setItem ni (linkInode inode newInodeP newName ni now)) k :=
      h.add (number.ne hg)
    refine Live.commit ⟨hnew.record, hnew.links.setItem fun e => ?_⟩
    have hfound : (s.inodes.setItem ni (linkInode inode newInodeP newName ni now)).d.get? k =
        some g := (Dict.get?_set_ne _ _ (number.ne hg)).trans hg
    subst e
    rw [hfound] at target
    cases target
    show 0 < g.stNlink + 1
    omega

/-- The inode that an entry shows. -/
def FSMeta.shows (t : FSMeta H) (p : Nat) (n : Bytes) (k : Nat) : Bool :=
  match findEntry t p n with
  | some (_, f) => f.inode = k
  | none => false

/-- `unlink` of another inode, or one that fails. -/
theorem unlink_live (h : Live s.inodes k)
    (hkept : s.inodes.shows p n k = true → (unlink p n s).1 ≠ .ok ()) :
    Live (unlink p n s).2.inodes k := by
  have hlookup := lookup_live (k := k) p n s h
  unfold FSMeta.shows at hkept
  unfold unlink at hkept ⊢
  rcases lookup_cases p n s with ⟨_, e⟩ | ⟨x, f, hfind, _, hino⟩
  · rw [Py.run_bind_error e]
    exact h
  · rw [hfind] at hkept
    cases hr : Fs.lookup p n s with
    | mk r s₁ =>
      rw [hr] at hlookup hino
      cases r with
      | error e =>
        rw [Py.run_bind_error hr]
        exact hlookup
      | ok e =>
        rw [Py.run_bind_ok hr] at hkept ⊢
        split
        · exact hlookup
        · rename_i hfile
          rw [if_neg hfile] at hkept
          cases hi : s₁.inodes.d.get? e.stIno with
          | none =>
            rw [Py.run_bind_error (inodeAt_missing hi)]
            exact hlookup
          | some i =>
            rw [Py.run_bind_ok (inodeAt_run hi)] at hkept ⊢
            have hne : e.stIno ≠ k := by
              intro hk
              exact hkept (decide_eq_true ((hino e rfl).1.symm.trans hk)) rfl
            exact (Live.add hlookup hne).commit

theorem rmdir_live {o : Observed (Fs H) (MetaStore H)}
    (h : LiveKept k o)
    (hkept : o.state.inodes.shows p n k = true → (Traffic.rmdir p n o).1 ≠ .ok ()) :
    LiveKept k (Traffic.rmdir p n o).2 := by
  have hlookup := lookup_live (k := k) p n o.state h.state
  unfold FSMeta.shows at hkept
  unfold Traffic.rmdir at hkept ⊢
  rcases lookup_cases p n o.state with ⟨_, e⟩ | ⟨x, f, hfind, _, hino⟩
  · have hquiet : Traffic.quiet (Fs.lookup p n) o = (.error (.fuseError .ENOENT), o) :=
      Py.quiet_run e
    rw [Py.run_bind_error hquiet]
    exact h
  · rw [hfind] at hkept
    cases hr : Fs.lookup p n o.state with
    | mk r s₁ =>
      have hquiet : Traffic.quiet (Fs.lookup p n) o = (r, ⟨s₁, o.seen⟩) := Py.quiet_run hr
      rw [hr] at hlookup hino
      have h₁ : LiveKept k ⟨s₁, o.seen⟩ :=
        ⟨hlookup, h.seen⟩
      cases r with
      | error e =>
        rw [Py.run_bind_error hquiet]
        exact h₁
      | ok e =>
        rw [Py.run_bind_ok hquiet] at hkept ⊢
        split
        · rename_i hdir
          rw [if_pos hdir] at hkept
          have hread : Traffic.quiet Py.read (⟨s₁, o.seen⟩ : Observed (Fs H) (MetaStore H)) =
              (.ok s₁, ⟨s₁, o.seen⟩) := rfl
          rw [Py.run_bind_ok hread] at hkept ⊢
          split
          · rename_i hempty
            rw [if_pos hempty] at hkept
            obtain ⟨hstIno, hcontains⟩ := hino e rfl
            have hdel : Traffic.noting (delInode e.stIno)
                (⟨s₁, o.seen⟩ : Observed (Fs H) (MetaStore H)) = (.ok (), _) :=
              Py.noting_run (delInode_run hcontains)
            rw [Py.run_bind_ok hdel] at hkept ⊢
            have hne : e.stIno ≠ k := fun hk =>
              hkept (decide_eq_true (hstIno.symm.trans hk)) rfl
            refine Py.keeps_noting commitInodes_live (fun _ => Live.record) _ ?_
            exact Py.always_noting (m := delInode e.stIno) h₁ (hlookup.delItem hne)
              fun _ => Live.record
          · exact h₁
        · exact h₁

theorem lookupTarget_live (p : Nat) (n : Bytes) :
    Py.Keeps (Py.Stays fun s : Fs H => Live s.inodes k) (lookupTarget p n) := by
  refine Py.keeps_attempt (Py.keeps_bind (lookup_live p n) fun _ => Py.keeps_pure _) fun e => ?_
  split
  · exact Py.keeps_pure _
  · exact Py.keeps_raise _

/-- The target that `rename` finds. -/
theorem lookupTarget_found_eq {e : EntryAttributes} (h : (lookupTarget p n s).1 = .ok (some e)) :
    (Fs.lookup p n s).1 = .ok e := by
  unfold lookupTarget at h
  cases hr : Fs.lookup p n s with
  | mk r s₁ =>
    cases r with
    | ok e' =>
      have hbind : (do
          let entryNew ← Fs.lookup p n
          return some entryNew : Op H (Option EntryAttributes)) s = (.ok (some e'), s₁) :=
        Py.run_bind_ok hr
      rw [Py.run_attempt_ok hbind] at h
      cases h
      rfl
    | error exc =>
      rw [Py.run_attempt_error (Py.run_bind_error hr)] at h
      split at h <;> cases h

/-- `_replace` fails at once, or returns; then only the target loses its link or its record. -/
theorem replace_live {entryOld entryNew : Nat} (h : Live s.inodes k)
    (hkept : entryNew = k → (replace p n entryOld entryNew s).1 ≠ .ok ()) :
    Live (replace p n entryOld entryNew s).2.inodes k := by
  unfold replace at hkept ⊢
  cases hold : s.inodes.d.get? entryOld with
  | none =>
    rw [Py.run_bind_error (inodeAt_missing hold)]
    exact h
  | some fOld =>
    rw [Py.run_bind_ok (inodeAt_run hold)] at hkept ⊢
    cases hnew : s.inodes.d.get? entryNew with
    | none =>
      rw [Py.run_bind_error (inodeAt_missing hnew)]
      exact h
    | some fNew =>
      rw [Py.run_bind_ok (inodeAt_run hnew)] at hkept ⊢
      have hne : entryNew ≠ k := fun e => hkept e (congrArg Prod.fst (Py.attempt_pass _ s))
      refine Py.stays_attempt (I := fun s : Fs H => Live s.inodes k) ?_ fun _ => Py.keeps_pure _
      have hset : ∀ v : FileInode H, v.stNlink = fOld.stNlink →
          Live (setInode entryOld v s).2.inodes k := fun v hv => h.set hold hv
      refine Py.stays_bind (I := fun s : Fs H => Live s.inodes k) (hset _ rfl) fun _ => ?_
      split
      · intro s₁ h₁
        cases hf : s₁.inodes.d.get? entryNew with
        | none =>
          rw [Py.run_bind_error (inodeAt_missing hf)]
          exact h₁
        | some f =>
          rw [Py.run_bind_ok (inodeAt_run hf)]
          exact Live.add h₁ hne
      · exact fun s₁ h₁ => Live.delItem h₁ hne

/-- The name that a request takes from an inode; `rename` searches for its target in the table in
    which its source was counted. -/
def Request.takes (t : FSMeta H) (k : Nat) : Request → Bool
  | .unlink p n => t.shows p n k
  | .rmdir p n => t.shows p n k
  | .rename pOld nOld pNew nNew _ =>
    match findEntry t pOld nOld with
    | some (x, f) => (t.update x f.lookedUp).shows pNew nNew k
    | none => false
  | _ => false

theorem renameTo_live {entryOld : Nat} {o : Observed (Fs H) (MetaStore H)}
    (h : LiveKept k o)
    (hkept : o.state.inodes.shows p n k = true → (Traffic.renameTo p n entryOld o).1 ≠ .ok ()) :
    LiveKept k (Traffic.renameTo p n entryOld o).2 := by
  have hcommit : Py.Keeps (Py.Stays (LiveKept k)) (Traffic.noting (commitInodes (H := H))) :=
    Py.keeps_noting commitInodes_live fun _ => Live.record
  have hlookup := lookupTarget_live (k := k) p n o.state h.state
  unfold Traffic.renameTo at hkept ⊢
  cases hr : lookupTarget p n o.state with
  | mk r s₁ =>
    have hquiet : Traffic.quiet (lookupTarget p n) o = (r, ⟨s₁, o.seen⟩) := Py.quiet_run hr
    rw [hr] at hlookup
    have h₁ : LiveKept k ⟨s₁, o.seen⟩ :=
      ⟨hlookup, h.seen⟩
    cases r with
    | error e =>
      rw [Py.run_bind_error hquiet]
      exact h₁
    | ok target =>
      rw [Py.run_bind_ok hquiet] at hkept ⊢
      cases target with
      | none =>
        dsimp only
        refine stays_inodeAt (o := ⟨s₁, o.seen⟩) h₁ fun f hf => ?_
        refine Py.stays_bind (Py.always_quiet h₁ ?_) fun _ => hcommit
        exact Live.set hlookup hf rfl
      | some entryNew =>
        dsimp only at hkept ⊢
        have hfound := lookupTarget_found_eq (congrArg Prod.fst hr)
        refine Py.stays_bind (Py.always_noting h₁ (replace_live hlookup fun e hok => ?_)
          fun _ => Live.record) fun _ => hcommit
        -- the target is the inode: then the rename returns
        have hshows : o.state.inodes.shows p n k = true := by
          unfold FSMeta.shows
          rcases lookup_cases p n o.state with ⟨_, e'⟩ | ⟨x, f, hfind, _, hino⟩
          · rw [e'] at hfound
            cases hfound
          · rw [hfind]
            exact decide_eq_true ((hino entryNew hfound).1.symm.trans e)
        refine hkept hshows ?_
        cases hrep : replace p n entryOld entryNew.stIno s₁ with
        | mk r' s₂ =>
          rw [hrep] at hok
          cases hok
          have hnote : Traffic.noting (replace p n entryOld entryNew.stIno)
              (⟨s₁, o.seen⟩ : Observed (Fs H) (MetaStore H)) = (.ok (), _) := Py.noting_run hrep
          rw [Py.run_bind_ok hnote]
          rfl

theorem rename_live {pOld pNew flags : Nat} {nOld nNew : Bytes} {o : Observed (Fs H) (MetaStore H)}
    (h : LiveKept k o)
    (hkept : (Request.rename pOld nOld pNew nNew flags).takes o.state.inodes k = true →
      (Traffic.rename pOld nOld pNew nNew flags o).1 ≠ .ok ()) :
    LiveKept k
      (Traffic.rename pOld nOld pNew nNew flags o).2 := by
  unfold Traffic.rename at hkept ⊢
  split
  · exact h
  · rename_i hflags
    rw [if_neg hflags] at hkept
    have hlookup := lookup_live (k := k) pOld nOld o.state h.state
    rcases lookup_cases pOld nOld o.state with ⟨_, e⟩ | ⟨x, f, hfind, htable, _⟩
    · have hquiet : Traffic.quiet (Fs.lookup pOld nOld) o = (.error (.fuseError .ENOENT), o) :=
        Py.quiet_run e
      rw [Py.run_bind_error hquiet]
      exact h
    · cases hr : Fs.lookup pOld nOld o.state with
      | mk r s₁ =>
        have hquiet : Traffic.quiet (Fs.lookup pOld nOld) o = (r, ⟨s₁, o.seen⟩) := Py.quiet_run hr
        rw [hr] at hlookup htable
        have h₁ : LiveKept k ⟨s₁, o.seen⟩ :=
          ⟨hlookup, h.seen⟩
        cases r with
        | error e =>
          rw [Py.run_bind_error hquiet]
          exact h₁
        | ok entryOld =>
          rw [Py.run_bind_ok hquiet] at hkept ⊢
          refine renameTo_live h₁ fun hshows => hkept ?_
          have hs₁ : s₁.inodes = o.state.inodes.update x f.lookedUp := congrArg Fs.inodes htable
          replace hshows : s₁.inodes.shows pNew nNew k = true := hshows
          rw [hs₁] at hshows
          unfold Request.takes
          dsimp only
          rw [hfind]
          exact hshows

variable [DecidableEq H]

theorem forgetOne_live (cfg : Config) (clock : Nat → Time) (inode nlookup : Nat) :
    Py.Keeps (Py.Stays fun s : Fs H => Live s.inodes k) (forgetOne cfg clock inode nlookup) := by
  intro s h
  have hrun := (forgetOne_run cfg clock inode nlookup s).2
  show Live (forgetOne cfg clock inode nlookup s).2.inodes k
  generalize (forgetOne cfg clock inode nlookup s).2 = s' at hrun ⊢
  cases hrun with
  | missing found => exact h
  | root found root => exact h.set found rfl
  | kept found notRoot => exact h.set found rfl
  | @removed f g found notRoot links =>
    have hne : inode ≠ k := by
      rintro rfl
      obtain ⟨g, hg, hlinks⟩ := h.links
      rw [found] at hg
      cases hg
      omega
    exact Live.delItem (h.set found rfl) hne

theorem removeUnlinked_live (cfg : Config) (clock : Nat → Time) (fh : Nat) :
    Py.Keeps (Py.Stays fun s : Fs H => Live s.inodes k) (Vfs.removeUnlinked cfg clock fh) := by
  intro s h
  rcases removeUnlinked_cases cfg clock fh s with e | ⟨f, hf, hlinks, e⟩
  · rw [e]
    exact h
  · rw [e]
    refine h.delItem ?_
    rintro rfl
    obtain ⟨g, hg, hpos⟩ := h.links
    rw [hf] at hg
    cases hg
    omega

end

/-! ## Operations -/

section

variable [DecidableEq H] {cfg : Config} {P : Packages H} {k : Nat}

/-- The same for the state of the handlers. -/
abbrev LiveServed (k : Nat) : Observed (Vfs H) (MetaStore H) → Prop :=
  Py.Always (fun v => Live v.fs.inodes k) (HasRecord · k)

omit [DecidableEq H] in
/-- The record was kept, and so were the links. -/
theorem LiveKept.of_parts {α : Type} {m' : Traffic H α} {m : Op H α}
    {o : Observed (Fs H) (MetaStore H)} (hfollows : Py.Follows m' m)
    (hrecord : RecordKept k (m' o).2) (hlinks : HasLinks (m o.state).2.inodes k) :
    LiveKept k (m' o).2 := by
  refine ⟨⟨hrecord.state, ?_⟩, hrecord.seen⟩
  rw [(hfollows o).2]
  exact hlinks

omit [DecidableEq H] in
theorem answer_live {α : Type} {reply : α → Reply} {m : Traffic H α}
    {o : Observed (Vfs H) (MetaStore H)} (hm : LiveKept k (m ⟨o.state.fs, o.seen⟩).2) :
    LiveServed k (Traffic.answer reply m o).2 := by
  have hfs : LiveServed k (Traffic.onFs m o).2 := ⟨hm.state, hm.seen⟩
  exact Py.stays_bind hfs fun _ => Py.keeps_pure _

omit [DecidableEq H] in
theorem onFs_live {α : Type} {m : Traffic H α} (hm : Py.Keeps (Py.Stays (LiveKept k)) m) :
    Py.Keeps (Py.Stays (LiveServed k)) (Traffic.onFs m) := by
  intro o h
  have hfs := hm ⟨o.state.fs, o.seen⟩ ⟨h.state, h.seen⟩
  exact ⟨hfs.state, hfs.seen⟩

omit [DecidableEq H] in
theorem noting_live {α : Type} {m : Op H α}
    (hm : Py.Keeps (Py.Stays fun s => Live s.inodes k) m) :
    Py.Keeps (Py.Stays (LiveKept k)) (Traffic.noting m) := Py.keeps_noting hm fun _ => Live.record

omit [DecidableEq H] in
/-- The count of open files is no inode. -/
theorem addOpen_live (fh : Nat) (n : Int) :
    Py.Keeps (Py.Stays (LiveServed k)) (Py.quiet (Vfs.addOpen (H := H) fh n)) :=
  Py.keeps_quiet fun _ h => h

omit [DecidableEq H] in
theorem symlink_live (p : Nat) (n target : Bytes) (uid gid : Nat) (now : Time) :
    Py.Keeps (Py.Stays (LiveKept k)) (Traffic.symlink (H := H) p n target uid gid now) := by
  refine Py.keeps_bind (noting_live (create_live _ now)) fun entry => ?_
  intro o h
  refine stays_inodeAt h fun f hf => ?_
  refine Py.stays_bind (Py.always_quiet h (h.state.set hf rfl)) fun _ => ?_
  exact Py.keeps_bind (noting_live commitInodes_live) fun _ => Py.keeps_pure _

theorem forget_live (cfg : Config) (clock : Nat → Nat → Time) (l : List (Nat × Nat)) :
    Py.Keeps (Py.Stays (LiveKept k)) (Traffic.forget (H := H) cfg clock l) :=
  Py.keeps_bind (Py.keeps_forEach fun _ => noting_live (forgetOne_live cfg _ _ _)) fun _ =>
    noting_live commitInodes_live

theorem release_live (cfg : Config) (clock : Nat → Time) (fh : Nat) :
    Py.Keeps (Py.Stays (LiveServed k)) (Traffic.release (H := H) cfg clock fh) := by
  have hcommit := onFs_live (k := k) (noting_live (commitInodes_live (H := H)))
  refine Py.keeps_bind (addOpen_live fh (-1)) fun _ => ?_
  refine Py.keeps_bind (Py.keeps_quiet (Py.keeps_read)) fun v => ?_
  split
  · refine Py.keeps_bind (Py.keeps_quiet fun _ h => h) fun _ => ?_
    exact Py.keeps_bind (onFs_live (noting_live (removeUnlinked_live cfg clock fh))) fun _ => hcommit
  · exact hcommit

/-- The request takes a name from the inode, and succeeds. -/
def Request.removes (cfg : Config) (c : Call) (v : Vfs H) (k : Nat) : Bool :=
  c.request.takes v.fs.inodes k &&
    match (c.request.handle cfg c.clock v).1 with
    | .ok _ => true
    | .error _ => false

/-- The user removes the inode: by `unlink`, `rmdir`, or as the target of `rename`. -/
def Operation.removes (cfg : Config) (v : Vfs H) (k : Nat) : Operation H → Bool
  | .request c => Request.removes cfg c v k
  | _ => false

theorem Request.not_removes {α : Type} {c : Call} {v : Vfs H} {reply : α → Reply} {m : Op H α}
    (hhandle : c.request.handle cfg c.clock = Vfs.answer reply m)
    (hkept : Request.removes cfg c v k = false) (htakes : c.request.takes v.fs.inodes k = true)
    (a : α) : (m v.fs).1 ≠ .ok a := by
  intro hm
  unfold Request.removes at hkept
  rw [htakes, hhandle, answer_run, hm] at hkept
  cases hkept

/-- **Every request** keeps the records of the live inodes that it does not remove. -/
theorem handle_live {c : Call} {o : Observed (Vfs H) (MetaStore H)} (h : LiveServed k o)
    (hkept : Request.removes cfg c o.state k = false) :
    LiveServed k (Traffic.handle cfg c.clock c.request o).2 := by
  obtain ⟨q, clock⟩ := c
  have hfs : LiveKept k ⟨o.state.fs, o.seen⟩ := ⟨h.state, h.seen⟩
  cases q with
  | lookup p n => exact answer_live (Py.keeps_quiet (lookup_live p n) _ hfs)
  | readdir inode off accepted =>
    exact answer_live (Py.always_quiet hfs (by rw [(readdir_run inode off _).2]; exact hfs.state))
  | create a =>
    refine Py.keeps_bind (Py.keeps_bind (onFs_live (noting_live (create_live a _))) fun entry => ?_)
      (fun _ => Py.keeps_pure _) o h
    exact Py.keeps_bind (addOpen_live _ _) fun _ => Py.keeps_pure _
  | mkdir a => exact answer_live (noting_live (create_live a _) _ hfs)
  | mknod a rdev => exact answer_live (noting_live (create_live _ _) _ hfs)
  | symlink p n target uid gid => exact answer_live (symlink_live p n target uid gid _ _ hfs)
  | link inode p n => exact answer_live (noting_live (link_live inode p n _) _ hfs)
  | unlink p n =>
    refine answer_live (Py.always_noting (m := unlink p n) hfs (unlink_live hfs.state fun ht => ?_)
      fun _ => Live.record)
    exact Request.not_removes rfl hkept ht ()
  | rmdir p n =>
    refine answer_live (rmdir_live hfs fun ht => ?_)
    rw [(rmdir_follows p n _).1]
    exact Request.not_removes rfl hkept ht ()
  | rename pOld nOld pNew nNew flags =>
    refine answer_live (rename_live hfs fun ht => ?_)
    rw [(rename_follows pOld nOld pNew nNew flags _).1]
    exact Request.not_removes rfl hkept ht ()
  | forget l => exact answer_live (forget_live cfg clock l _ hfs)
  | openFile inode => exact Py.keeps_bind (addOpen_live inode 1) (fun _ => Py.keeps_pure _) o h
  | release fh => exact Py.keeps_bind (release_live cfg (clock 0) fh) (fun _ => Py.keeps_pure _) o h

/-- **Every operation** that spares the records keeps those of the live inodes that it does not
remove. -/
theorem Operation.traffic_live {e : Operation H} {o : Observed (Vfs H) (MetaStore H)}
    (h : LiveServed k o) (hspares : e.spares o.state.fs.inodes = true)
    (hkept : e.removes cfg o.state k = false) : LiveServed k (e.traffic cfg P o).2 := by
  have hfs : LiveKept k ⟨o.state.fs, o.seen⟩ := ⟨h.state, h.seen⟩
  have hrecord : RecordKept k ⟨o.state.fs, o.seen⟩ := ⟨h.state.record, h.seen⟩
  cases e with
  | request c => exact handle_live h hkept
  | read fh offset length now =>
    have hexposes : o.state.fs.inodes.exposes fh = false := (Bool.not_eq_true' _).mp hspares
    refine answer_live (LiveKept.of_parts (read_follows cfg P fh offset length now)
      (read_records hrecord fun e => ?_) ((read_linksSame cfg P fh offset length now _).hasLinks
        hfs.state.links))
    rw [e] at hexposes ⊢
    exact hfs.state.settled hexposes
  | retrieveData fh offset length whole =>
    have hexposes : o.state.fs.inodes.exposes fh = false := (Bool.not_eq_true' _).mp hspares
    have hread : Reread fh o.state.fs _ := retrieveData_keeps cfg P fh offset length whole o.state.fs
    refine answer_live (LiveKept.of_parts (retrieveData_follows cfg P fh offset length whole)
      (retrieveData_records hrecord fun e => ?_) (hread.linksSame.hasLinks hfs.state.links))
    rw [e] at hexposes ⊢
    exact hfs.state.settled hexposes
  | calcOffsets fh =>
    have hne : fh ≠ k := by
      rintro rfl
      obtain ⟨f, hf, hlinks⟩ := hfs.state.links
      unfold Operation.spares at hspares
      dsimp only at hspares
      rw [show o.state.fs.inodes.d.get? fh = some f from hf] at hspares
      exact of_decide_eq_true hspares ⟨hlinks, hfs.state.record⟩
    have hread : Reread fh o.state.fs _ := calcOffsets_keeps fh o.state.fs
    exact answer_live (LiveKept.of_parts (calcOffsets_follows fh) (calcOffsets_records hne _ hrecord)
      (hread.linksSame.hasLinks hfs.state.links))
  | write fh offset buf now =>
    have hexposes : o.state.fs.inodes.writeExposes fh offset buf.length = false :=
      (Bool.not_eq_true' _).mp hspares
    refine answer_live (LiveKept.of_parts (write_follows cfg P fh offset buf now)
      (write_records hrecord fun e f hf hm => ?_)
      ((write_linksSame cfg P fh offset buf now _).hasLinks hfs.state.links))
    rw [e] at hexposes hf ⊢
    exact hfs.state.write_settled hexposes hf hm
  | setattr inode a env =>
    exact answer_live (LiveKept.of_parts (setattr_follows cfg P env inode a)
      (setattr_records hrecord hfs.state hspares)
      (setattr_links env inode a _ hfs.state.links))
  | flush =>
    refine answer_live (noting_live (Py.keeps_bind commitInodes_live fun _ => ?_) _ hfs)
    exact fun _ h => h
  | writerStep env => exact answer_live (Py.always_quiet hfs hfs.state)
  | collect clock => exact answer_live (Py.always_quiet hfs hfs.state)

/-! ## Runs -/

/-- The databases that a crash can leave in a run. -/
def crashPoints (cfg : Config) (P : Packages H) : Vfs H → List (Operation H) → List (MetaStore H)
  | v, [] => [v.fs.inodes.ht]
  | v, e :: es => e.points cfg P v ++ crashPoints cfg P (e.exec cfg P v) es

/-- The user removes the inode in a run. -/
def removedIn (cfg : Config) (P : Packages H) (k : Nat) : Vfs H → List (Operation H) → Bool
  | _, [] => false
  | v, e :: es => e.removes cfg v k || removedIn cfg P k (e.exec cfg P v) es

/-- **Live inodes stay durable.**  In every run of operations that spare the records, a live inode
has a record at every point until the user removes it, and a mount after a crash loads it. -/
theorem live_inodes_durable {v v' : Vfs H} {es : List (Operation H)}
    (hrun : ((operationRuns cfg P).meeting fun v e => e.spares v.fs.inodes = true).Run v es v') :
    ∀ k, Live v.fs.inodes k → removedIn cfg P k v es = false →
      (∀ db ∈ crashPoints cfg P v es, HasRecord db k ∧
        ∀ t : FSMeta H, t.ht = db → ∃ f, t.initFromDisk.d.get? k = some f) ∧
      Live v'.fs.inodes k := by
  intro k hlive hkept
  have hreload : ∀ db, HasRecord db k →
      HasRecord db k ∧ ∀ t : FSMeta H, t.ht = db → ∃ f, t.initFromDisk.d.get? k = some f :=
    fun db hdb => ⟨hdb, fun t ht => HasRecord.reloads (ht ▸ hdb)⟩
  induction hrun with
  | nil v =>
    refine ⟨fun db hdb => ?_, hlive⟩
    rw [List.mem_singleton.mp hdb]
    exact hreload _ hlive.record
  | @cons v v₁ v₂ e es hstep _ ih =>
    obtain ⟨rfl, hspares⟩ := hstep
    rw [removedIn, Bool.or_eq_false_iff] at hkept
    have hstart : LiveServed k (⟨v, [v.fs.inodes.ht]⟩ : Observed (Vfs H) (MetaStore H)) := by
      refine ⟨hlive, fun db hdb => ?_⟩
      rw [List.mem_singleton.mp hdb]
      exact hlive.record
    have hend := Operation.traffic_live (P := P) hstart hspares hkept.1
    have hnext : Live (e.exec cfg P v).fs.inodes k := by
      have hstate := hend.state
      rw [(Operation.traffic_follows e _).2] at hstate
      exact hstate
    obtain ⟨hpoints, hlast⟩ := ih hnext hkept.2
    refine ⟨fun db hdb => ?_, hlast⟩
    rcases List.mem_append.mp hdb with hdb | hdb
    · exact hreload db (hend.seen db hdb)
    · exact hpoints db hdb

end

/-! ## Sample runs -/

/-- A file system with one file, written once. -/
def oneFileVfs : Vfs Bytes :=
  System.after (Operation.exec .shipped .plain) sampleSession.vfs
    [.request ⟨.create ⟨1, [97], 33188, 0, 0, 0, none⟩, fun _ _ => 0⟩, .write 2 0 [7] 0]

theorem oneFileVfs_live : Live oneFileVfs.fs.inodes 2 := by
  refine ⟨by decide, ?_⟩
  have hlinks : ∃ e ∈ oneFileVfs.fs.inodes.d.entries, e.1 = 2 ∧ 0 < e.2.stNlink := by
    decide
  obtain ⟨⟨k, f⟩, hmem, rfl, hpos⟩ := hlinks
  exact ⟨f, (Dict.mem_entries_iff _).mp hmem, hpos⟩

/-- The file grows and is closed; a second file is made, read and removed. -/
def sparingOperations : List (Operation Bytes) :=
  [.setattr 2 { stSize := some 3 } ⟨fun _ => 0, SetOrder.listed _⟩, .flush,
    .request ⟨.release 2, fun _ _ => 0⟩,
    .request ⟨.create ⟨1, [98], 33188, 0, 0, 0, none⟩, fun _ _ => 0⟩, .read 3 0 1 0,
    .request ⟨.unlink 1 [98], fun _ _ => 0⟩, .request ⟨.forget [(3, 1)], fun _ _ => 0⟩]

theorem live_inodes_durable_sample :
    removedIn .shipped .plain 2 oneFileVfs sparingOperations = false ∧
    ∀ db ∈ crashPoints .shipped .plain oneFileVfs sparingOperations, HasRecord db 2 := by
  have hrun := System.run_meeting_after (Operation.exec .shipped .plain)
    (fun v e => e.spares v.fs.inodes) sparingOperations oneFileVfs (by decide)
  have hkept : removedIn .shipped .plain 2 oneFileVfs sparingOperations = false := by
    decide
  exact ⟨hkept, fun db hdb => ((live_inodes_durable hrun 2 oneFileVfs_live hkept).1 db hdb).1⟩

/-- A read takes the record of its file away, and the commit after it puts it back. -/
theorem read_exposes :
    ¬ ∀ (v v' : Vfs Bytes) (es : List (Operation Bytes)),
      (operationRuns .shipped .plain).Run v es v' → ∀ k, Live v.fs.inodes k →
      removedIn .shipped .plain k v es = false →
      ∀ db ∈ crashPoints .shipped .plain v es, HasRecord db k := by
  intro h
  have hrun := System.run_after (Operation.exec .shipped .plain) [.read 2 0 1 0] oneFileVfs
  have hall := h _ _ _ hrun 2 oneFileVfs_live (by decide +kernel)
  have hlost : ∃ db ∈ crashPoints .shipped .plain oneFileVfs [.read 2 0 1 0],
      ¬ HasRecord db 2 := by
    decide +kernel
  obtain ⟨db, hdb, hnot⟩ := hlost
  exact hnot (hall db hdb)

end VeratyFS
