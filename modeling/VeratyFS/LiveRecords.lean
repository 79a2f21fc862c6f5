import VeratyFS.StoreTraffic
import VeratyFS.DurableInodes

/-!
# Records and links through the file operations

* `HasRecord` — a database has a record of an inode; `HasRecord.reloads` — a mount loads it.
* `HasLinks`, `Live` — an inode that was not removed.
* `RecordKept` — the record is there at every point of an operation.  Only `calc_offsets` takes it
  away, and only from the file that is read.
* `FSMeta.exposes` — reading the file would compute its offsets.
-/

set_option autoImplicit false

namespace VeratyFS

open Pylib

variable {H : Type}

/-! ## Records and links -/

def HasRecord (db : MetaStore H) (k : Nat) : Prop := (decoded db k).isSome = true

instance (db : MetaStore H) (k : Nat) : Decidable (HasRecord db k) :=
  inferInstanceAs (Decidable (_ = _))

/-- An inode that was not removed: `unlink` and `rename` take the link. -/
def HasLinks (t : FSMeta H) (k : Nat) : Prop := ∃ f, t.d.get? k = some f ∧ 0 < f.stNlink

structure Live (t : FSMeta H) (k : Nat) : Prop where
  record : HasRecord t.ht k
  links : HasLinks t k

section

variable {t t' : FSMeta H} {k x : Nat} {f v : FileInode H} {db : MetaStore H}

theorem HasRecord.set (h : HasRecord db k) (n : Bytes) (f : FileInode H) :
    HasRecord (db.set n f) k := by
  unfold HasRecord decoded at *
  cases hk : toBytes 64 k with
  | none =>
    rw [hk] at h
    exact h
  | some m =>
    rw [hk] at h
    show ((db.set n f).get? m).isSome = true
    rw [Dict.get?_set]
    split
    · rfl
    · exact h

theorem HasRecord.batch (h : HasRecord db k) (l : List (Bytes × FileInode H)) :
    HasRecord (l.foldl (fun d e => d.set e.1 e.2) db) k := by
  induction l generalizing db with
  | nil => exact h
  | cons e l ih => exact ih (h.set e.1 e.2)

theorem HasRecord.commit (h : HasRecord t.ht k) : HasRecord t.commit.ht k := by
  unfold FSMeta.commit FSMeta.batchSaveToDisk
  split
  · exact h
  · exact h.batch _

theorem HasRecord.delItem (h : HasRecord t.ht k) (hx : x ≠ k) : HasRecord (t.delItem x).2.ht k := by
  have herase : ∀ n, toBytes 64 x = some n → HasRecord (t.ht.erase n) k := by
    intro n hn
    unfold HasRecord
    rw [decoded_erase hn, if_neg hx]
    exact h
  unfold FSMeta.delItem FSMeta.removeFromDisk
  cases hn : toBytes 64 x with
  | none => exact h
  | some n =>
    dsimp only
    split <;> exact herase n hn

/-- **A record is loaded** by the next mount. -/
theorem HasRecord.reloads (h : HasRecord t.ht k) : ∃ f, t.initFromDisk.d.get? k = some f := by
  have hmem : ∃ e ∈ t.ht.entries, fromBytes e.1 = k := by
    obtain ⟨f, hf⟩ := Option.isSome_iff_exists.mp h
    obtain ⟨n, hn, hget⟩ := Option.bind_eq_some_iff.mp hf
    exact ⟨(n, f), t.ht.mem_entries_iff.mpr hget, fromBytes_toBytes hn⟩
  have hload : ∀ (l : List (Bytes × FileInode H)) (d : Dict Nat (FileInode H)),
      ((∃ e ∈ l, fromBytes e.1 = k) ∨ ∃ f, d.get? k = some f) →
      ∃ f, (l.foldl (fun d e => d.set (fromBytes e.1) e.2.reloaded) d).get? k = some f := by
    intro l
    induction l with
    | nil =>
      rintro d (⟨e, he, _⟩ | hd)
      · cases he
      · exact hd
    | cons e l ih =>
      intro d h
      refine ih _ ?_
      rcases h with ⟨e', he', hk⟩ | ⟨f, hf⟩
      · rcases List.mem_cons.mp he' with rfl | hl
        · exact .inr ⟨_, by rw [Dict.get?_set, if_pos hk]⟩
        · exact .inl ⟨e', hl, hk⟩
      · right
        rw [Dict.get?_set]
        split
        · exact ⟨_, rfl⟩
        · exact ⟨f, hf⟩
  exact hload _ _ (.inl hmem)

/-- The links after one inode changed. -/
theorem HasLinks.change (h : HasLinks t k) (hv : x = k → 0 < v.stNlink)
    (hd : ∀ y, t'.d.get? y = if x = y then some v else t.d.get? y) : HasLinks t' k := by
  obtain ⟨f, hf, hlinks⟩ := h
  unfold HasLinks
  rw [hd]
  split
  · rename_i e
    exact ⟨v, rfl, hv e⟩
  · exact ⟨f, hf, hlinks⟩

theorem HasLinks.setItem (h : HasLinks t k) (hv : x = k → 0 < v.stNlink) :
    HasLinks (t.setItem x v) k := h.change hv (t.setItem_d_get? x · v)

/-- The inode of a number, set with the links that it has. -/
theorem HasLinks.reset (h : HasLinks t k) (hx : t.d.get? x = some f) (hv : v.stNlink = f.stNlink) :
    HasLinks (t.setItem x v) k := by
  refine h.setItem fun e => ?_
  obtain ⟨g, hg, hlinks⟩ := h
  rw [e, hg] at hx
  cases hx
  rw [hv]
  exact hlinks

theorem HasLinks.update (h : HasLinks t k) (hx : t.d.get? x = some f) :
    HasLinks (t.update x f.lookedUp) k := by
  refine h.change (fun e => ?_) (FSMeta.update_d_get?_of hx _)
  obtain ⟨g, hg, hlinks⟩ := h
  rw [e, hg] at hx
  cases hx
  exact hlinks

theorem HasLinks.commit (h : HasLinks t k) : HasLinks t.commit k := by
  unfold HasLinks
  rw [FSMeta.commit_d]
  exact h

theorem HasLinks.delItem (h : HasLinks t k) (hx : x ≠ k) : HasLinks (t.delItem x).2 k := by
  obtain ⟨f, hf, hlinks⟩ := h
  rcases t.delItem_d_get? x k with e | ⟨e, _⟩
  · exact ⟨f, e.trans hf, hlinks⟩
  · exact absurd e hx

end

/-! ## Records through the file operations -/

/-- The record is there now, and was at every point. -/
abbrev RecordKept (k : Nat) : Observed (Fs H) (MetaStore H) → Prop :=
  Py.Always (fun s => HasRecord s.inodes.ht k) (HasRecord · k)

/-- Reading the file would compute no offsets. -/
def Settled (t : FSMeta H) (fh : Nat) : Prop :=
  ∀ f, t.d.get? fh = some f → f.data ≠ [] → f.offsets ≠ []

section

variable {k fh : Nat} {o : Observed (Fs H) (MetaStore H)}

/-- An operation that leaves the database alone. -/
theorem quiet_records {α : Type} {m : Op H α} (hm : ∀ s, (m s).2.inodes.ht = s.inodes.ht) :
    Py.Keeps (Py.Stays (RecordKept k)) (Traffic.quiet m) := by
  refine Py.keeps_quiet fun s h => ?_
  show HasRecord (m s).2.inodes.ht k
  rw [hm]
  exact h

theorem inodeAt_state (fh : Nat) (s : Fs H) : (inodeAt fh s).2 = s := by
  cases h : s.inodes.d.get? fh with
  | none => rw [inodeAt_missing h]
  | some f => rw [inodeAt_run h]

theorem quiet_inodeAt {f : FileInode H} (h : o.state.inodes.d.get? fh = some f) :
    Traffic.quiet (inodeAt fh) o = (.ok f, o) := Py.quiet_run (inodeAt_run h)

theorem quiet_inodeAt_missing (h : o.state.inodes.d.get? fh = none) :
    Traffic.quiet (inodeAt fh) o = (.error .keyError, o) := Py.quiet_run (inodeAt_missing h)

/-- Without the inode nothing happens. -/
theorem stays_inodeAt {α : Type} {I : Observed (Fs H) (MetaStore H) → Prop}
    {next : FileInode H → Traffic H α} (h : I o)
    (hnext : ∀ f, o.state.inodes.d.get? fh = some f → I (next f o).2) :
    I ((Traffic.quiet (inodeAt fh) >>= next) o).2 := by
  cases hf : o.state.inodes.d.get? fh with
  | none =>
    rw [Py.run_bind_error (quiet_inodeAt_missing hf)]
    exact h
  | some f =>
    rw [Py.run_bind_ok (quiet_inodeAt hf)]
    exact hnext f hf

theorem inodeAt_records (fh : Nat) :
    Py.Keeps (Py.Stays (RecordKept k)) (Traffic.quiet (inodeAt (H := H) fh)) :=
  quiet_records fun s => by rw [inodeAt_state]

theorem commitInodes_records :
    Py.Keeps (Py.Stays (RecordKept k)) (Traffic.noting (commitInodes (H := H))) :=
  Py.keeps_noting (fun _ h => HasRecord.commit h) fun _ => id

theorem delInode_records (hne : fh ≠ k) :
    Py.Keeps (Py.Stays (RecordKept k)) (Traffic.noting (delInode (H := H) fh)) :=
  Py.keeps_noting (fun _ h => HasRecord.delItem h hne) fun _ => id

theorem calcOffsets_records (hne : fh ≠ k) :
    Py.Keeps (Py.Stays (RecordKept k)) (Traffic.calcOffsets (H := H) fh) := by
  refine Py.keeps_bind (inodeAt_records fh) fun f => ?_
  refine Py.keeps_bind (quiet_records fun _ => rfl) fun _ => ?_
  exact Py.keeps_bind (delInode_records hne) fun _ => quiet_records fun _ => rfl

theorem ensureOffsets_records {f : FileInode H} (h : fh = k → f.offsets ≠ []) :
    Py.Keeps (Py.Stays (RecordKept k)) (Traffic.ensureOffsets fh f) := by
  unfold Traffic.ensureOffsets
  split
  · rename_i hempty
    refine Py.keeps_bind (calcOffsets_records fun e => h e hempty) fun _ => ?_
    exact Py.keeps_bind commitInodes_records fun _ => inodeAt_records fh
  · exact Py.keeps_pure _

variable [DecidableEq H] {cfg : Config} {P : Packages H}

/-- Reading blocks leaves the inodes alone. -/
theorem retrieveBlocks_inodes (f : FileInode H) (offset length : Nat) (whole : Bool) :
    Py.Keeps (InvImage Eq fun s : Fs H => s.inodes) (retrieveBlocks cfg P f offset length whole) :=
  retrieveBlocks_keeps (fun _ _ _ => rfl) offset length whole

/-- A read of another inode, or of one whose offsets are there. -/
theorem retrieveData_records {offset length : Nat} {whole : Bool} (h : RecordKept k o)
    (hsettled : fh = k → Settled o.state.inodes fh) :
    RecordKept k (Traffic.retrieveData cfg P fh offset length whole o).2 := by
  have hread : Traffic.quiet Py.read o = (.ok o.state, o) := rfl
  unfold Traffic.retrieveData
  rw [Py.run_bind_ok hread]
  cases hf : o.state.inodes.getItem? fh with
  | none => exact h
  | some f =>
    dsimp only
    split
    · exact h
    · rename_i hdata
      refine Py.keeps_bind (ensureOffsets_records fun e => hsettled e f hf hdata) (fun f' => ?_) o h
      exact quiet_records fun s =>
        congrArg FSMeta.ht (retrieveBlocks_inodes f' offset length whole s).symm

theorem read_records {offset length : Nat} {now : Time} (h : RecordKept k o)
    (hsettled : fh = k → Settled o.state.inodes fh) :
    RecordKept k (Traffic.read cfg P fh offset length now o).2 := by
  refine Py.stays_bind (retrieveData_records h hsettled) fun r => ?_
  refine Py.keeps_bind (inodeAt_records fh) fun f => ?_
  exact Py.keeps_bind (quiet_records fun _ => rfl) fun _ => Py.keeps_pure _

theorem writeMiddle_records {offset : Nat} {buf : Bytes} (h : RecordKept k o)
    (hsettled : fh = k → Settled o.state.inodes fh) :
    RecordKept k (Traffic.writeMiddle cfg P fh offset buf o).2 := by
  refine Py.stays_bind (retrieveData_records h hsettled) fun r => ?_
  cases r with
  | data d => exact Py.keeps_raise _
  | whole startDiff startBlock endBlock d =>
    refine Py.keeps_bind (quiet_records fun _ => rfl) fun _ => ?_
    exact Py.keeps_bind (inodeAt_records fh) fun _ => Py.keeps_pure _

/-- An append, a write to another inode, or to one whose offsets are there. -/
theorem write_records {offset : Nat} {buf : Bytes} {now : Time} (h : RecordKept k o)
    (hsettled : fh = k → ∀ f, o.state.inodes.d.get? fh = some f → inMiddle f offset buf.length →
      Settled o.state.inodes fh) :
    RecordKept k (Traffic.write cfg P fh offset buf now o).2 := by
  unfold Traffic.write
  refine stays_inodeAt h fun f hf => ?_
  split
  · rename_i hm
    have hmid : RecordKept k (Traffic.writeMiddle cfg P fh offset buf o).2 :=
      writeMiddle_records h fun e => hsettled e f hf hm
    refine Py.stays_bind (Py.stays_attempt (Py.stays_bind hmid fun _ => Py.keeps_pure _)
      fun e => ?_) fun written => ?_
    · split
      · exact Py.keeps_pure _
      · exact Py.keeps_raise _
    · cases written with
      | none => exact Py.keeps_pure _
      | some f' => exact quiet_records fun _ => rfl
  · refine Py.keeps_bind (quiet_records fun _ => rfl) (fun blocks => ?_) o h
    exact quiet_records fun _ => rfl

/-! ## Links through the file operations -/

/-- One inode changed, and not its links. -/
structure LinksSame (fh : Nat) (t t' : FSMeta H) : Prop where
  others : ∀ x, x ≠ fh → t'.d.get? x = t.d.get? x
  self : ∀ f, t.d.get? fh = some f → ∃ f', t'.d.get? fh = some f' ∧ f'.stNlink = f.stNlink

omit [DecidableEq H] in
theorem LinksSame.hasLinks {t t' : FSMeta H} {x : Nat} (h : LinksSame fh t t') (hx : HasLinks t x) :
    HasLinks t' x := by
  obtain ⟨f, hf, hlinks⟩ := hx
  by_cases e : x = fh
  · subst e
    obtain ⟨f', hf', heq⟩ := h.self f hf
    exact ⟨f', hf', heq ▸ hlinks⟩
  · exact ⟨f, (h.others x e).trans hf, hlinks⟩

omit [DecidableEq H] in
theorem Reread.linksSame {s s' : Fs H} (h : Reread fh s s') : LinksSame fh s.inodes s'.inodes := by
  refine ⟨h.others, fun f hf => ?_⟩
  obtain ⟨f', hf', ho⟩ := h.of_some hf
  exact ⟨f', hf', by rw [ho.eq]⟩

theorem write_linksSame (cfg : Config) (P : Packages H) (fh offset : Nat) (buf : Bytes) (now : Time)
    (s : Fs H) : LinksSame fh s.inodes (write cfg P fh offset buf now s).2.inodes := by
  cases hf : s.inodes.d.get? fh with
  | none =>
    rw [write_missing hf]
    exact ⟨fun _ _ => rfl, fun f hf' => ⟨f, hf', rfl⟩⟩
  | some f =>
    by_cases hm : inMiddle f offset buf.length
    · rcases write_middle cfg P now hf hm with ⟨_, hread⟩ | ⟨_, _, _, _, s₁, f₁, _, _, _, hread, _, ho, _, hw⟩
      · exact hread.linksSame
      · rw [hw]
        refine ⟨fun x hx => ?_, fun g hg => ?_⟩
        · exact (Dict.get?_set_ne _ _ (Ne.symm hx)).trans (hread.others x hx)
        · rw [hf] at hg
          cases hg
          refine ⟨_, Dict.get?_set_self _ _ _, ?_⟩
          show f₁.stNlink = f.stNlink
          rw [ho.eq]
    · obtain ⟨blks, g', _, hw⟩ := write_append cfg P now hf hm
      rw [hw]
      refine ⟨fun x hx => Dict.get?_set_ne _ _ (Ne.symm hx), fun g hg => ?_⟩
      rw [hf] at hg
      cases hg
      exact ⟨_, Dict.get?_set_self _ _ _, rfl⟩

theorem read_linksSame (cfg : Config) (P : Packages H) (fh offset length : Nat) (now : Time)
    (s : Fs H) : LinksSame fh s.inodes (read cfg P fh offset length now s).2.inodes :=
  Reread.linksSame (read_keeps cfg P fh offset length now s)

theorem copyBlocks_links (cfg : Config) (P : Packages H) (now : Time) (fh tempIno newSize x : Nat) :
    ∀ (rest : List (FileBlock H)) (offset : Nat), Py.Keeps (Py.Stays fun s => HasLinks s.inodes x)
      (copyBlocks cfg P now fh tempIno newSize rest offset)
  | [], _ => Py.keeps_pure _
  | i :: rest, offset => by
    have hread : ∀ length, Py.Keeps (Py.Stays fun s => HasLinks s.inodes x)
        (read cfg P fh offset length now) := fun length s =>
      (read_linksSame cfg P fh offset length now s).hasLinks
    have hwrite : ∀ dat, Py.Keeps (Py.Stays fun s => HasLinks s.inodes x)
        (write cfg P tempIno offset dat now) := fun dat s =>
      (write_linksSame cfg P tempIno offset dat now s).hasLinks
    unfold copyBlocks
    split
    · refine Py.keeps_bind (hread _) fun dat => Py.keeps_bind (hwrite dat) fun written => ?_
      split
      · exact Py.keeps_pure _
      · exact copyBlocks_links cfg P now fh tempIno newSize x rest (offset + written)
    · exact Py.keeps_bind (hread _) fun dat => Py.keeps_bind (hwrite dat) fun _ => Py.keeps_pure _

theorem replaceInode_links {cfg : Config} {env : CallEnv H} {fh tempIno : Nat} {s : Fs H}
    (h : HasLinks s.inodes k) (hne : tempIno ≠ k)
    (htemp : fh = k → HasLinks s.inodes tempIno) :
    HasLinks (replaceInode cfg env fh tempIno s).2.inodes k := by
  rcases replaceInode_cases cfg env fh tempIno s with e | ⟨f, r, g', _, _, ⟨_, e⟩ | ⟨fNew, _, hnew, e⟩⟩
  · rw [e]
    exact h
  · rw [e]
    exact h
  · rw [e]
    refine (h.setItem fun e => ?_).delItem hne
    obtain ⟨g, hg, hlinks⟩ := htemp e
    rw [hnew] at hg
    cases hg
    exact hlinks

omit [DecidableEq H] in
theorem Reread.settled {s s' : Fs H} (h : Reread fh s s') (hs : Settled s.inodes fh) :
    Settled s'.inodes fh := by
  intro f' hf' hdata
  rcases h.self with ⟨_, hn⟩ | ⟨f, g, hf, hg, ho⟩
  · rw [hf'] at hn
    cases hn
  · rw [hf'] at hg
    cases hg
    rw [ho.data] at hdata
    rcases ho.offsets with e | e
    · rw [e]
      exact hs f hf hdata
    · rw [e]
      cases hd : f.data with
      | nil => exact absurd hd hdata
      | cons b rest => exact List.cons_ne_nil _ _

/-! ## Truncation -/

omit [DecidableEq H] in
theorem NextNumber.ne {s : Fs H} {ino : Nat} {g : FileInode H} (h : NextNumber s ino)
    (hk : s.inodes.d.get? k = some g) : ino ≠ k := by
  rintro rfl
  rw [h.unused] at hk
  cases hk

theorem copyBlocks_records {now : Time} {tempIno newSize : Nat} (hne : tempIno ≠ k) :
    ∀ (rest : List (FileBlock H)) (offset : Nat) (o : Observed (Fs H) (MetaStore H)),
      RecordKept k o → (fh = k → Settled o.state.inodes fh) →
      RecordKept k (Traffic.copyBlocks cfg P now fh tempIno newSize rest offset o).2
  | [], _, _, h, _ => h
  | i :: rest, offset, o, h, hsettled => by
    -- a read leaves the file settled, and a write to the copy leaves the file alone
    have hwrite : ∀ dat o₁, RecordKept k o₁ →
        RecordKept k (Traffic.write cfg P tempIno offset dat now o₁).2 :=
      fun dat o₁ h₁ => write_records h₁ fun e => absurd e hne
    have hread : ∀ length, RecordKept k (Traffic.read cfg P fh offset length now o).2 :=
      fun length => read_records h hsettled
    have hround : ∀ length, fh = k → ∀ dat,
        Settled (Traffic.write cfg P tempIno offset dat now
          (Traffic.read cfg P fh offset length now o).2).2.state.inodes fh := by
      intro length e dat
      have hr : Settled (Traffic.read cfg P fh offset length now o).2.state.inodes fh := by
        rw [(read_follows cfg P fh offset length now o).2]
        exact Reread.settled (read_keeps cfg P fh offset length now o.state) (hsettled e)
      intro f hf
      rw [(write_follows cfg P tempIno offset dat now _).2,
        (write_linksSame cfg P tempIno offset dat now _).others fh (e ▸ Ne.symm hne)] at hf
      exact hr f hf
    unfold Traffic.copyBlocks
    split
    · cases hr : Traffic.read cfg P fh offset i.rawSize now o with
      | mk r o₁ =>
        have h₁ := hread i.rawSize
        have hsettled₁ := hround i.rawSize
        rw [hr] at h₁ hsettled₁
        cases r with
        | error e =>
          rw [Py.run_bind_error hr]
          exact h₁
        | ok dat =>
          rw [Py.run_bind_ok hr]
          cases hw : Traffic.write cfg P tempIno offset dat now o₁ with
          | mk r' o₂ =>
            have h₂ := hwrite dat o₁ h₁
            have hsettled₂ := fun e => hsettled₁ e dat
            rw [hw] at h₂ hsettled₂
            cases r' with
            | error e =>
              rw [Py.run_bind_error hw]
              exact h₂
            | ok written =>
              rw [Py.run_bind_ok hw]
              split
              · exact h₂
              · exact copyBlocks_records hne rest (offset + written) o₂ h₂ hsettled₂
    · refine Py.stays_bind (hread _) fun dat => ?_
      exact Py.keeps_bind (hwrite dat) fun _ => Py.keeps_pure _

theorem replaceInode_records {env : CallEnv H} {tempIno : Nat} (hne : tempIno ≠ k) :
    Py.Keeps (Py.Stays (RecordKept k)) (Traffic.noting (replaceInode cfg env fh tempIno)) := by
  refine Py.keeps_noting (fun s h => ?_) fun _ => id
  rcases replaceInode_cases cfg env fh tempIno s with e | ⟨f, r, g', _, _, ⟨_, e⟩ | ⟨fNew, _, _, e⟩⟩
  · rw [e]
    exact h
  · rw [e]
    exact h
  · rw [e]
    exact HasRecord.delItem (t := s.inodes.setItem fh fNew) h hne

theorem truncateDown_records {env : CallEnv H} {newSize : Nat} (h : RecordKept k o)
    (hlinks : HasLinks o.state.inodes k) (hsettled : fh = k → Settled o.state.inodes fh) :
    RecordKept k (Traffic.truncateDown cfg P env fh newSize o).2 := by
  unfold Traffic.truncateDown
  cases hf : o.state.inodes.d.get? fh with
  | none =>
    have hquiet : Traffic.quiet (copyInode fh) o = (.error .keyError, o) :=
      Py.quiet_run (copyInode_missing hf)
    rw [Py.run_bind_error hquiet]
    exact h
  | some f =>
    obtain ⟨tempIno, hnext, hrun⟩ := copyInode_run hf
    obtain ⟨g, hg, _⟩ := hlinks
    have hne : tempIno ≠ k := hnext.ne hg
    have hquiet : Traffic.quiet (copyInode fh) o =
        (.ok tempIno, ⟨{ o.state with inodes := o.state.inodes.setItem tempIno (emptied f) }, o.seen⟩) :=
      Py.quiet_run hrun
    rw [Py.run_bind_ok hquiet]
    refine Py.stays_attempt ?_ fun _ => Py.keeps_pure _
    have hfh : (o.state.inodes.setItem tempIno (emptied f)).d.get? fh = some f :=
      (Dict.get?_set_ne _ _ (hnext.ne hf)).trans hf
    rw [Py.run_bind_ok (quiet_inodeAt hfh)]
    refine Py.stays_bind (copyBlocks_records hne f.data 0 _ ⟨h.state, h.seen⟩ fun e g hg => ?_)
      fun _ => replaceInode_records hne
    rw [hfh] at hg
    cases hg
    exact hsettled e f hf

theorem truncateDown_links {env : CallEnv H} {newSize : Nat} {s : Fs H}
    (h : HasLinks s.inodes k) : HasLinks (truncateDown cfg P env fh newSize s).2.inodes k := by
  unfold truncateDown
  cases hf : s.inodes.d.get? fh with
  | none =>
    rw [Py.run_bind_error (copyInode_missing hf)]
    exact h
  | some f =>
    obtain ⟨tempIno, hnext, hrun⟩ := copyInode_run hf
    obtain ⟨g, hg, hlinks⟩ := h
    have hne : tempIno ≠ k := hnext.ne hg
    rw [Py.run_bind_ok hrun]
    have hk : HasLinks (s.inodes.setItem tempIno (emptied f)) k :=
      HasLinks.setItem ⟨g, hg, hlinks⟩ fun e => absurd e hne
    have htemp : fh = k → HasLinks (s.inodes.setItem tempIno (emptied f)) tempIno := by
      rintro rfl
      rw [hf] at hg
      cases hg
      exact ⟨_, Dict.get?_set_self _ _ _, hlinks⟩
    have hfh : (s.inodes.setItem tempIno (emptied f)).d.get? fh = some f :=
      (Dict.get?_set_ne _ _ (hnext.ne hf)).trans hf
    refine Py.stays_attempt (I := fun s : Fs H => HasLinks s.inodes k) ?_ fun _ => Py.keeps_pure _
    rw [Py.run_bind_ok (inodeAt_run (s := { s with inodes := s.inodes.setItem tempIno (emptied f) }) hfh)]
    have hcopy := fun x => copyBlocks_links cfg P (env.clock 0) fh tempIno newSize x f.data 0
      { s with inodes := s.inodes.setItem tempIno (emptied f) }
    cases hr : copyBlocks cfg P (env.clock 0) fh tempIno newSize f.data 0
        { s with inodes := s.inodes.setItem tempIno (emptied f) } with
    | mk r s₁ =>
      rw [hr] at hcopy
      cases r with
      | error e =>
        rw [Py.run_bind_error hr]
        exact hcopy k hk
      | ok _ =>
        rw [Py.run_bind_ok hr]
        exact replaceInode_links (hcopy k hk) hne fun e => hcopy tempIno (htemp e)

end

/-! ## Operations that spare the records -/

section

variable [DecidableEq H] {cfg : Config} {P : Packages H}

/-- Reading the file would take away the record of a live inode. -/
def FSMeta.exposes (t : FSMeta H) (fh : Nat) : Bool :=
  match t.d.get? fh with
  | some f => decide (f.data ≠ [] ∧ f.offsets = [] ∧ 0 < f.stNlink ∧ HasRecord t.ht fh)
  | none => false

/-- The mid-file branch of `write` reads the file. -/
def FSMeta.writeExposes (t : FSMeta H) (fh offset len : Nat) : Bool :=
  match t.d.get? fh with
  | some f => decide (inMiddle f offset len) && t.exposes fh
  | none => false

/-- The size part of `setattr` reads the file that it shortens. -/
def FSMeta.resizeExposes (t : FSMeta H) (f : FileInode H) (size : Nat) : Bool :=
  if f.size < size then t.writeExposes f.inode f.size (size - f.size)
  else decide (size < f.size) && t.exposes f.inode

/-- No `calc_offsets` of a live inode. -/
def Operation.spares (t : FSMeta H) : Operation H → Bool
  | .read fh _ _ _ => !t.exposes fh
  | .retrieveData fh _ _ _ => !t.exposes fh
  | .calcOffsets fh =>
    match t.d.get? fh with
    | some f => decide (¬ (0 < f.stNlink ∧ HasRecord t.ht fh))
    | none => true
  | .write fh offset buf _ => !t.writeExposes fh offset buf.length
  | .setattr inode a _ =>
    match t.d.get? inode, a.stSize with
    | some f, some size => !t.resizeExposes f size
    | _, _ => true
  | _ => true

variable {t : FSMeta H} {k fh : Nat} {o : Observed (Fs H) (MetaStore H)}

omit [DecidableEq H] in
theorem Live.settled (h : Live t k) (hexposes : t.exposes k = false) : Settled t k := by
  intro f hf hdata hoffsets
  obtain ⟨g, hg, hlinks⟩ := h.links
  rw [hf] at hg
  cases hg
  unfold FSMeta.exposes at hexposes
  rw [hf] at hexposes
  exact of_decide_eq_false hexposes ⟨hdata, hoffsets, hlinks, h.record⟩

theorem Live.write_settled {offset len : Nat} {f : FileInode H} (h : Live t k)
    (hexposes : t.writeExposes k offset len = false) (hf : t.d.get? k = some f)
    (hm : inMiddle f offset len) : Settled t k := by
  unfold FSMeta.writeExposes at hexposes
  rw [hf] at hexposes
  dsimp only at hexposes
  rw [decide_eq_true hm, Bool.true_and] at hexposes
  exact h.settled hexposes

theorem resize_records {env : CallEnv H} {f : FileInode H} {size : Nat} (h : RecordKept k o)
    (hlive : Live o.state.inodes k) (hspares : o.state.inodes.resizeExposes f size = false) :
    RecordKept k (Traffic.resize cfg P env f size o).2 := by
  unfold FSMeta.resizeExposes at hspares
  unfold Traffic.resize
  split
  · rename_i hlt
    rw [if_pos hlt] at hspares
    refine Py.stays_bind (write_records h fun e g hg hm => ?_) fun _ => Py.keeps_pure _
    rw [List.length_replicate] at hm
    rw [e] at hspares hg ⊢
    exact hlive.write_settled hspares hg hm
  · rename_i hge
    rw [if_neg hge] at hspares
    split
    · rename_i hlt
      rw [decide_eq_true hlt, Bool.true_and] at hspares
      refine truncateDown_records h hlive.links fun e => ?_
      rw [e] at hspares ⊢
      exact hlive.settled hspares
    · exact h

theorem resize_links (env : CallEnv H) (f : FileInode H) (size : Nat) :
    Py.Keeps (Py.Stays fun s => HasLinks s.inodes k) (resize cfg P env f size) := by
  unfold resize
  split
  · refine Py.keeps_bind (fun s => ?_) fun _ => Py.keeps_pure _
    exact (write_linksSame cfg P f.inode f.size _ _ s).hasLinks
  · split
    · exact fun s h => truncateDown_links h
    · exact Py.keeps_pure _

omit [DecidableEq H] in
theorem setAttributes_links (inode : Nat) (a : SetattrFields) (now : Time) :
    Py.Keeps (Py.Stays fun s : Fs H => HasLinks s.inodes k) (setAttributes inode a now) := by
  intro s h
  unfold setAttributes
  cases hf : s.inodes.d.get? inode with
  | none =>
    rw [Py.run_bind_error (inodeAt_missing hf)]
    exact h
  | some f =>
    rw [Py.run_bind_ok (inodeAt_run hf)]
    exact HasLinks.reset h hf rfl

omit [DecidableEq H] in
theorem getattr_stays (I : Fs H → Prop) (inode : Nat) : Py.Keeps (Py.Stays I) (getattr inode) := by
  intro s h
  rw [getattr_state]
  exact h

theorem setattr_links (env : CallEnv H) (inode : Nat) (a : SetattrFields) :
    Py.Keeps (Py.Stays fun s => HasLinks s.inodes k) (setattr cfg P env inode a) := by
  refine Py.keeps_bind (inodeAt_keeps inode) fun f => ?_
  refine Py.keeps_bind ?_ fun _ => Py.keeps_bind (setAttributes_links inode a _) fun _ =>
    getattr_stays _ inode
  cases a.stSize with
  | none => exact Py.keeps_pure _
  | some size => exact Py.keeps_attempt (resize_links env f size) fun _ => Py.keeps_pure _

theorem setattr_records {env : CallEnv H} {inode : Nat} {a : SetattrFields} (h : RecordKept k o)
    (hlive : Live o.state.inodes k)
    (hspares : (Operation.setattr inode a env).spares o.state.inodes = true) :
    RecordKept k (Traffic.setattr cfg P env inode a o).2 := by
  have hset : Py.Keeps (Py.Stays (RecordKept k))
      (Traffic.quiet (setAttributes (H := H) inode a (env.clock 0))) := by
    refine quiet_records fun s => ?_
    unfold setAttributes
    cases hf : s.inodes.d.get? inode with
    | none => rw [Py.run_bind_error (inodeAt_missing hf)]
    | some f =>
      rw [Py.run_bind_ok (inodeAt_run hf)]
      rfl
  have hend : ∀ _ : Unit, Py.Keeps (Py.Stays (RecordKept k)) (do
      Traffic.quiet (setAttributes (H := H) inode a (env.clock 0))
      Traffic.quiet (getattr inode)) := fun _ =>
    Py.keeps_bind hset fun _ => quiet_records fun s => by rw [getattr_state]
  unfold Traffic.setattr
  refine stays_inodeAt h fun f hf => ?_
  refine Py.stays_bind ?_ hend
  cases hsize : a.stSize with
  | none => exact h
  | some size =>
    have hfits : o.state.inodes.resizeExposes f size = false := by
      unfold Operation.spares at hspares
      dsimp only at hspares
      rw [hf, hsize] at hspares
      exact (Bool.not_eq_true' _).mp hspares
    exact Py.stays_attempt (resize_records h hlive hfits) fun _ => Py.keeps_pure _

end

end VeratyFS
