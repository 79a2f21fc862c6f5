import VeratyFS.HashTable
import VeratyFS.Lib.Runs
import VeratyFS.Lib.WriteBack

/-!
# The hash table as a durable map

Is `HashTable` a map that a commit makes durable?

* `TableOp`, `tableOps` — the calls of the table, in any order.
* `Written` — the databases hold the entries that are not pending.
* `hashTable_lawful` — runs whose deletions hit keys that are not pending.
* `delItem_pending` — a deletion of a pending key: it can still be read, and the next commit brings
  it back.
-/

set_option autoImplicit false

namespace VeratyFS

open Pylib

variable {H : Type} [DecidableEq H]

inductive TableOp (H : Type) where
  | setItem (k : H) (b : Block H)
  | delItem (k : H)
  | getItem (k : H)
  | contains (k : H)
  | commit

/-- The table after a call, whether it returns or raises. -/
def TableOp.exec : TableOp H → HashTable H → HashTable H
  | .setItem k b, t => t.setItem k b
  | .delItem k, t => (t.delItem k).2
  | .getItem _, t => t
  | .contains _, t => t
  | .commit, t => t.commit

/-- What a call does to the map that the table stands for. -/
def TableOp.apply : TableOp H → (H → Option (Block H)) → H → Option (Block H)
  | .setItem k b, m => fun x => if k = x then some b else m x
  | .delItem k, m => fun x => if k = x then none else m x
  | .getItem _, m => m
  | .contains _, m => m
  | .commit, m => m

/-- The last values set and not deleted since. -/
def lastSet (ops : List (TableOp H)) (m : H → Option (Block H)) : H → Option (Block H) :=
  ops.foldl (fun m op => op.apply m) m

def tableOps : System (HashTable H) (TableOp H) := .ofFun TableOp.exec

/-- A deletion hits a key that is not pending. -/
def TableOp.deletesWritten (t : HashTable H) : TableOp H → Bool
  | .delItem k => !t.pending.contains k
  | _ => true

namespace HashTable

variable {t : HashTable H}

/-- The databases hold the entries that are not pending. -/
structure Written (t : HashTable H) : Prop where
  ht : Overlay t.d.get? t.pending.get? t.ht.get?
  mirror : t.replication = true → Overlay t.d.get? t.pending.get? t.mirror.get?

/-- The table of a new object: what the database has, and nothing pending. -/
structure Loaded (t : HashTable H) : Prop where
  pending : t.pending = Dict.empty
  ht : ∀ k, t.d.get? k = t.ht.get? k
  mirror : t.replication = true → ∀ k, t.mirror.get? k = t.ht.get? k

theorem Loaded.written (h : t.Loaded) : t.Written := by
  have hp : ∀ k, t.pending.get? k = none := by
    rw [h.pending]
    intro k
    rfl
  exact ⟨.of_stored (fun k => (h.ht k).symm) hp,
    fun hr => .of_stored (fun k => (h.mirror hr k).trans (h.ht k).symm) hp⟩

theorem Written.setItem (h : t.Written) (k : H) (b : Block H) : (t.setItem k b).Written :=
  ⟨h.ht.set (fun x => t.d.get?_set k x b) fun x => t.pending.get?_set k x b,
    fun hr => (h.mirror hr).set (fun x => t.d.get?_set k x b) fun x => t.pending.get?_set k x b⟩

theorem delItem_d_get? (t : HashTable H) (k x : H) :
    (t.delItem k).2.d.get? x = if k = x then none else t.d.get? x := by
  unfold delItem
  dsimp only
  split
  · exact t.d.get?_erase k x
  · rename_i hc
    by_cases e : k = x
    · subst e
      rw [if_pos rfl]
      cases hd : t.d.get? k with
      | none => exact hd
      | some b => exact absurd ((Dict.contains_iff _).mpr ⟨b, hd⟩) hc
    · rw [if_neg e]
      rfl

theorem delItem_pending_eq (t : HashTable H) (k : H) : (t.delItem k).2.pending = t.pending := by
  unfold delItem
  dsimp only
  split <;> rfl

theorem delItem_ht (t : HashTable H) (k : H) : (t.delItem k).2.ht = t.ht.erase k := by
  unfold delItem
  dsimp only
  split <;> rfl

theorem delItem_replication (t : HashTable H) (k : H) :
    (t.delItem k).2.replication = t.replication := by
  unfold delItem
  dsimp only
  split <;> rfl

theorem delItem_mirror (t : HashTable H) (k : H) (hr : t.replication = true) :
    (t.delItem k).2.mirror = t.mirror.erase k := by
  unfold delItem removeFromDisk
  dsimp only
  rw [if_pos hr]
  split <;> rfl

/-- A key that is not pending can be deleted. -/
theorem Written.delItem (h : t.Written) {k : H} (hk : t.pending.contains k = false) :
    (t.delItem k).2.Written := by
  have hp : ∀ x, (t.delItem k).2.pending.get? x = if k = x then none else t.pending.get? x := by
    intro x
    rw [delItem_pending_eq]
    by_cases e : k = x
    · subst e
      rw [if_pos rfl]
      exact (Dict.contains_eq_false _).mp hk
    · rw [if_neg e]
  refine ⟨h.ht.erase (delItem_d_get? t k) hp fun x => ?_, fun hr => ?_⟩
  · rw [delItem_ht]
    exact t.ht.get?_erase k x
  · rw [delItem_replication] at hr
    refine (h.mirror hr).erase (delItem_d_get? t k) hp fun x => ?_
    rw [delItem_mirror t k hr]
    exact t.mirror.get?_erase k x

theorem commit_mirror_get? (t : HashTable H) (hr : t.replication = true) (k : H) :
    t.commit.mirror.get? k = (t.pending.get? k).orElse fun _ => t.mirror.get? k := by
  unfold commit saveToDisk
  rw [if_pos hr]
  exact t.mirror.get?_update t.pending k

/-- After a commit the database is the dictionary. -/
theorem Written.commit_ht (h : t.Written) (k : H) : t.commit.ht.get? k = t.d.get? k :=
  h.ht.commit (t.commit_ht_get?) k

theorem Written.commit_mirror (h : t.Written) (hr : t.replication = true) (k : H) :
    t.commit.mirror.get? k = t.d.get? k :=
  (h.mirror hr).commit (t.commit_mirror_get? hr) k

theorem Written.commit (h : t.Written) : t.commit.Written :=
  ⟨.of_stored h.commit_ht fun _ => rfl, fun hr => .of_stored (h.commit_mirror hr) fun _ => rfl⟩

/-- The databases hold the entries. -/
structure Persisted (t : HashTable H) : Prop where
  ht : ∀ h, t.ht.get? h = t.d.get? h
  mirror : t.replication = true → ∀ h, t.mirror.get? h = t.d.get? h

theorem Written.persisted (h : t.Written) : t.commit.Persisted :=
  ⟨h.commit_ht, fun hr => h.commit_mirror hr⟩

/-- What is pending is in the dictionary, so both lookups see the same keys. -/
theorem Written.getItem? (h : t.Written) (k : H) : t.getItem? k = t.d.get? k := by
  unfold HashTable.getItem?
  cases hd : t.d.get? k with
  | some b => rfl
  | none =>
    have hk := h.ht k
    rw [hd] at hk
    cases hp : t.pending.get? k with
    | none => rfl
    | some b =>
      rw [hp] at hk
      cases hk

/-- **Every call but the deletion of a pending key keeps the databases up with the entries.** -/
theorem Written.exec (h : t.Written) {op : TableOp H} (hop : op.deletesWritten t = true) :
    (op.exec t).Written := by
  cases op with
  | setItem k b => exact h.setItem k b
  | delItem k => exact h.delItem ((Bool.not_eq_true' _).mp hop)
  | getItem k => exact h
  | contains k => exact h
  | commit => exact h.commit

/-- The dictionary follows the map. -/
theorem exec_d (t : HashTable H) (op : TableOp H) : (op.exec t).d.get? = op.apply t.d.get? := by
  funext x
  cases op with
  | setItem k b => exact t.d.get?_set k x b
  | delItem k => exact delItem_d_get? t k x
  | getItem k => rfl
  | contains k => rfl
  | commit => rfl

theorem run_d {ops : List (TableOp H)} {t t' : HashTable H} (h : tableOps.Run t ops t') :
    t'.d.get? = lastSet ops t.d.get? := by
  induction h with
  | nil t => rfl
  | @cons t t₁ t' op ops hstep _ ih =>
    cases hstep
    rw [ih, exec_d]
    rfl

end HashTable

/-- **The hash table is a map, and a commit makes it durable**, in every run from a loaded table whose
deletions hit keys that are not pending. -/
theorem hashTable_lawful {t t' : HashTable H} {ops : List (TableOp H)} (hload : t.Loaded)
    (hrun : (tableOps.meeting fun t op => op.deletesWritten t = true).Run t ops t') :
    (∀ k, t'.contains k = true ↔ ∃ b, t'.getItem? k = some b) ∧
    (∀ k, t'.getItem? k = lastSet ops t.d.get? k) ∧
    (∀ k, t'.commit.initFromDisk.d.get? k = t'.d.get? k) ∧
    (t'.replication = true → ∀ k, t'.commit.mirror.get? k = t'.d.get? k) := by
  have hw : t'.Written := by
    refine hrun.invariant ?_ hload.written
    rintro t op _ hw ⟨rfl, hop⟩
    exact hw.exec hop
  refine ⟨fun k => ?_, fun k => ?_, fun k => ?_, hw.commit_mirror⟩
  · rw [hw.getItem?]
    exact t'.d.contains_iff
  · rw [hw.getItem?, HashTable.run_d hrun.of_meeting]
  · rw [HashTable.initFromDisk_d_get?, hw.commit_ht]

/-- A deletion of a key that was written. -/
theorem hashTable_lawful_sample :
    let ops : List (TableOp Nat) := [.setItem 1 { hash := 1 }, .commit, .delItem 1,
      .setItem 2 { hash := 2 }]
    let t := System.after TableOp.exec (.new true) ops
    (∀ k, t.contains k = true ↔ ∃ b, t.getItem? k = some b) ∧
    (∀ k, t.getItem? k = lastSet ops (HashTable.new true).d.get? k) ∧
    (∀ k, t.commit.initFromDisk.d.get? k = t.d.get? k) ∧
    (t.replication = true → ∀ k, t.commit.mirror.get? k = t.d.get? k) :=
  hashTable_lawful ⟨rfl, fun _ => rfl, fun _ _ => rfl⟩
    (System.run_meeting_after _ (fun t op => TableOp.deletesWritten t op) _ _ (by decide))

/-- **A deletion of a pending key** leaves it readable, and the next commit brings it back. -/
theorem delItem_pending {t : HashTable H} {k : H} {b : Block H} (hp : t.pending.get? k = some b) :
    (t.delItem k).2.contains k = false ∧ (t.delItem k).2.getItem? k = some b ∧
      (t.delItem k).2.commit.initFromDisk.d.get? k = some b := by
  have hd : (t.delItem k).2.d.get? k = none := by
    rw [HashTable.delItem_d_get?, if_pos rfl]
  refine ⟨?_, ?_, ?_⟩
  · unfold HashTable.contains Dict.contains
    rw [hd]
    rfl
  · unfold HashTable.getItem?
    rw [hd, HashTable.delItem_pending_eq]
    exact hp
  · rw [HashTable.initFromDisk_d_get?, HashTable.commit_ht_get?, HashTable.delItem_pending_eq, hp]
    rfl

/-- An entry set and deleted before any commit. -/
theorem hashTable_resurrects : ¬ ∀ (t t' : HashTable Nat) (ops : List (TableOp Nat)), t.Loaded →
    tableOps.Run t ops t' →
      (∀ k, t'.contains k = true ↔ ∃ b, t'.getItem? k = some b) ∧
      (∀ k, t'.getItem? k = lastSet ops t.d.get? k) ∧
      ∀ k, t'.commit.initFromDisk.d.get? k = t'.d.get? k := by
  intro h
  have hlaw := h (.new true) _ [.setItem 1 { hash := 1 }, .delItem 1]
    ⟨rfl, fun _ => rfl, fun _ _ => rfl⟩ (System.run_after TableOp.exec _ _)
  have hcontains := (hlaw.1 1).mpr ⟨{ hash := 1 }, by decide⟩
  revert hcontains
  decide

end VeratyFS
