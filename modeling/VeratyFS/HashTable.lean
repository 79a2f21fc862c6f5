import VeratyFS.Datastructures

/-!
# The hash table (`hashtable.py`)

`d` is the in-memory dictionary, `pending` the entries the next `commit` writes, `ht` and `mirror`
the two databases (a record is the pickled entry, so it keeps the value the entry had when the
batch was built).

Python entries are objects: `d[k]` and `pending[k]`, where both are present, are one object
(`Aliased`), so changing a field in place (`mutate`) changes both.
-/

set_option autoImplicit false

namespace VeratyFS

open Pylib

structure HashTable (H : Type) where
  d : Dict H (Block H)
  pending : Dict H (Block H)
  ht : Dict H (Block H)
  replication : Bool
  mirror : Dict H (Block H)

namespace HashTable

variable {H : Type} [DecidableEq H] (t : HashTable H)

/-- A new table over empty databases. -/
def new {H : Type} (replication : Bool) : HashTable H :=
  ⟨Dict.empty, Dict.empty, Dict.empty, replication, Dict.empty⟩

/-- `__getitem__`; `none` is `KeyError`. -/
def getItem? (k : H) : Option (Block H) :=
  match t.d.get? k with
  | some b => some b
  | none => t.pending.get? k

/-- `__contains__`. -/
def contains (k : H) : Bool := t.d.contains k

/-- `__setitem__`. -/
def setItem (k : H) (b : Block H) : HashTable H :=
  { t with d := t.d.set k b, pending := t.pending.set k b }

/-- `t[k].field = …`: the entry changed in place, pending or not. -/
def mutate (k : H) (f : Block H → Block H) : HashTable H :=
  { t with d := t.d.modify k f, pending := t.pending.modify k f }

/-- `save_to_disk`: one batch for each database. -/
def saveToDisk (cp : Dict H (Block H)) : HashTable H :=
  { t with
    ht := t.ht.update cp
    mirror := if t.replication then t.mirror.update cp else t.mirror }

/-- `commit`. -/
def commit : HashTable H := saveToDisk { t with pending := Dict.empty } t.pending

/-- `remove_from_disk`. -/
def removeFromDisk (k : H) : HashTable H :=
  { t with
    ht := t.ht.erase k
    mirror := if t.replication then t.mirror.erase k else t.mirror }

/-- `__delitem__`: the database first, then `del self.d[k]`. -/
def delItem (k : H) : Except PyError Unit × HashTable H :=
  let t' := t.removeFromDisk k
  if t'.d.contains k then (.ok (), { t' with d := t'.d.erase k }) else (.error .keyError, t')

/-- `init_from_disk` into the empty dictionary of a new object. -/
def initFromDisk : HashTable H := { t with d := Dict.empty.update t.ht, pending := Dict.empty }

/-- An entry that is pending is the one in the dictionary. -/
def Aliased : Prop := ∀ k b b', t.d.get? k = some b → t.pending.get? k = some b' → b = b'

@[simp] theorem setItem_d_get? (k k' : H) (b : Block H) :
    (t.setItem k b).d.get? k' = if k = k' then some b else t.d.get? k' := t.d.get?_set k k' b

@[simp] theorem mutate_d_get? (k k' : H) (f : Block H → Block H) :
    (t.mutate k f).d.get? k' = if k = k' then (t.d.get? k').map f else t.d.get? k' :=
  t.d.get?_modify k k' f

@[simp] theorem commit_d : t.commit.d = t.d := rfl

@[simp] theorem commit_pending : t.commit.pending = Dict.empty := rfl

@[simp] theorem mutate_ht (k : H) (f : Block H → Block H) : (t.mutate k f).ht = t.ht := rfl

@[simp] theorem setItem_ht (k : H) (b : Block H) : (t.setItem k b).ht = t.ht := rfl

theorem getItem?_of_d {k : H} {b : Block H} (h : t.d.get? k = some b) : t.getItem? k = some b := by
  simp [getItem?, h]

theorem commit_ht_get? (k : H) :
    t.commit.ht.get? k = (t.pending.get? k).orElse fun _ => t.ht.get? k :=
  t.ht.get?_update t.pending k

/-- The table after `init_from_disk` is the stored one. -/
theorem initFromDisk_d_get? (k : H) : t.initFromDisk.d.get? k = t.ht.get? k := by
  have h : (Dict.empty.update t.ht).get? k = (t.ht.get? k).orElse fun _ => none :=
    Dict.get?_update _ t.ht k
  simpa [initFromDisk] using h

theorem Aliased.setItem {t : HashTable H} (h : t.Aliased) (k : H) (b : Block H) :
    (t.setItem k b).Aliased := by
  intro k' b₁ b₂ h₁ h₂
  have h₂' : (t.pending.set k b).get? k' = some b₂ := h₂
  rw [Dict.get?_set] at h₂'
  rw [setItem_d_get?] at h₁
  split at h₁
  · rename_i e
    rw [if_pos e] at h₂'
    exact Option.some.inj (h₁.symm.trans h₂')
  · rename_i e
    rw [if_neg e] at h₂'
    exact h k' b₁ b₂ h₁ h₂'

theorem Aliased.mutate {t : HashTable H} (h : t.Aliased) (k : H) (f : Block H → Block H) :
    (t.mutate k f).Aliased := by
  intro k' b₁ b₂ h₁ h₂
  have h₂' : (t.pending.modify k f).get? k' = some b₂ := h₂
  rw [Dict.get?_modify] at h₂'
  rw [mutate_d_get?] at h₁
  split at h₁
  · rename_i e
    rw [if_pos e] at h₂'
    obtain ⟨c₁, hc₁, rfl⟩ := Option.map_eq_some_iff.mp h₁
    obtain ⟨c₂, hc₂, rfl⟩ := Option.map_eq_some_iff.mp h₂'
    rw [h k' c₁ c₂ hc₁ hc₂]
  · rename_i e
    rw [if_neg e] at h₂'
    exact h k' b₁ b₂ h₁ h₂'

theorem Aliased.commit {t : HashTable H} : t.commit.Aliased := by
  intro k b b' _ h
  simp at h

end HashTable

end VeratyFS
