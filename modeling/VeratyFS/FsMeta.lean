import VeratyFS.Datastructures

/-!
# The inode table (`fsmeta.py`)

`FSMeta` has the shape of the hash table: the dictionary `d`, the `pending` entries of the next
`commit`, and the two databases, whose keys are the inode numbers as 64 bytes, little-endian.  A
stored record is the pickled inode, so it keeps the value the inode had when it was written.

Inodes are objects: the table returns a reference, and the operations change it in place before
they set it.  Here an operation works on the value and writes it back (`update`).
-/

set_option autoImplicit false

namespace VeratyFS

open Pylib

/-- `File_Inode`, less `no_compression`, which nothing reads. -/
structure FileInode (H : Type) where
  inode : Nat
  parentInode : Nat := 0
  name : Bytes := []
  target : Bytes := []
  stNlink : Int := 1
  listOnDirLookup : Bool := true
  lookupCount : Int := 1
  uid : Nat := 0
  gid : Nat := 0
  mode : Nat := 0
  mtimeNs : Int := 0
  atimeNs : Int := 0
  ctimeNs : Int := 0
  size : Nat := 0
  rdev : Nat := 0
  data : List (FileBlock H) := []
  offsets : List Nat := []
  hardLink : Nat := 0

/-- `k.to_bytes(n, byteorder='little')`; `none` is the `OverflowError`. -/
def toBytes : Nat → Nat → Option Bytes
  | 0, k => if k = 0 then some [] else none
  | n + 1, k => (toBytes n (k / 256)).map (UInt8.ofNat (k % 256) :: ·)

/-- `int.from_bytes(n, byteorder='little')`. -/
def fromBytes : Bytes → Nat
  | [] => 0
  | b :: n => b.toNat + 256 * fromBytes n

/-- An inode as `init_from_disk` puts it into the dictionary. -/
def FileInode.reloaded {H : Type} (f : FileInode H) : FileInode H :=
  { f with lookupCount := 1, listOnDirLookup := true }

structure FSMeta (H : Type) where
  d : Dict Nat (FileInode H)
  pending : Dict Nat (FileInode H)
  ht : Dict Bytes (FileInode H)
  replication : Bool
  mirror : Dict Bytes (FileInode H)

namespace FSMeta

variable {H : Type} (t : FSMeta H)

def new {H : Type} (replication : Bool) : FSMeta H :=
  ⟨Dict.empty, Dict.empty, Dict.empty, replication, Dict.empty⟩

/-- `__getitem__`; `none` is `KeyError`. -/
def getItem? (k : Nat) : Option (FileInode H) := t.d.get? k

/-- `__setitem__`. -/
def setItem (k : Nat) (v : FileInode H) : FSMeta H :=
  { t with d := t.d.set k v, pending := t.pending.set k v }

/-- The inode of a key changed in place, pending or not. -/
def update (k : Nat) (v : FileInode H) : FSMeta H :=
  { t with d := t.d.modify k fun _ => v, pending := t.pending.modify k fun _ => v }

/-- `max(self.d)`; `none` is the `ValueError` of an empty table. -/
def max : Option Nat := t.d.keys.max?

/-- `remove_from_disk`; the flag is false when the key does not fit 64 bytes. -/
def removeFromDisk (k : Nat) : Bool × FSMeta H :=
  match toBytes 64 k with
  | none => (false, t)
  | some n => (true, { t with
      ht := t.ht.erase n
      mirror := if t.replication then t.mirror.erase n else t.mirror })

/-- `__delitem__`: the databases first, then the pending entry, then the dictionary. -/
def delItem (k : Nat) : Except PyError Unit × FSMeta H :=
  match t.removeFromDisk k with
  | (false, t') => (.ok (), t')
  | (true, t') =>
    let t' := { t' with pending := t'.pending.erase k }
    if t'.d.contains k then (.ok (), { t' with d := t'.d.erase k }) else (.error .keyError, t')

/-- The batch of `batch_save_to_disk`; `none` when a key does not fit. -/
def batch (cp : Dict Nat (FileInode H)) : Option (List (Bytes × FileInode H)) :=
  cp.entries.mapM fun e => (toBytes 64 e.1).map (·, e.2)

/-- `batch_save_to_disk`: nothing is written when the batch cannot be built. -/
def batchSaveToDisk (cp : Dict Nat (FileInode H)) : FSMeta H :=
  match batch cp with
  | none => t
  | some l =>
    { t with
      ht := l.foldl (fun d e => d.set e.1 e.2) t.ht
      mirror := if t.replication then l.foldl (fun d e => d.set e.1 e.2) t.mirror else t.mirror }

/-- `commit`. -/
def commit : FSMeta H := batchSaveToDisk { t with pending := Dict.empty } t.pending

/-- `init_from_disk` into the empty dictionary of a new object. -/
def initFromDisk : FSMeta H :=
  { t with
    d := t.ht.entries.foldl (fun d e => d.set (fromBytes e.1) e.2.reloaded) Dict.empty
    pending := Dict.empty }

@[simp] theorem setItem_d (k : Nat) (v : FileInode H) : (t.setItem k v).d = t.d.set k v := rfl

@[simp] theorem update_d (k : Nat) (v : FileInode H) :
    (t.update k v).d = t.d.modify k fun _ => v := rfl

@[simp] theorem commit_d : t.commit.d = t.d := by
  unfold commit batchSaveToDisk
  split <;> rfl

@[simp] theorem commit_pending : t.commit.pending = Dict.empty := by
  unfold commit batchSaveToDisk
  split <;> rfl

@[simp] theorem commit_replication : t.commit.replication = t.replication := by
  unfold commit batchSaveToDisk
  split <;> rfl

/-- A table with an inode has a greatest number, and no inode lies above it. -/
theorem max_spec {k : Nat} {f : FileInode H} (h : t.d.get? k = some f) :
    ∃ m, t.max = some m ∧ ∀ k' f', t.d.get? k' = some f' → k' ≤ m := by
  have hk : k ∈ t.d.keys := t.d.mem_keys_iff.mpr ⟨f, h⟩
  cases hm : t.d.keys.max? with
  | none =>
    rw [List.max?_eq_none_iff] at hm
    rw [hm] at hk
    cases hk
  | some m =>
    refine ⟨m, hm, fun k' f' h' => ?_⟩
    exact (List.max?_eq_some_iff.mp hm).2 k' (t.d.mem_keys_iff.mpr ⟨f', h'⟩)

/-- Deleting touches no other key of the dictionary. -/
theorem delItem_d_get? (k k' : Nat) :
    (t.delItem k).2.d.get? k' = t.d.get? k' ∨ k = k' ∧ (t.delItem k).2.d.get? k' = none := by
  unfold delItem removeFromDisk
  cases toBytes 64 k with
  | none => exact .inl rfl
  | some n =>
    dsimp only
    split
    · dsimp only
      rw [Dict.get?_erase]
      split
      · rename_i h
        exact .inr ⟨h, rfl⟩
      · exact .inl rfl
    · exact .inl rfl

/-- What holds of every inode holds after a deletion. -/
theorem forall_delItem {p : Nat → FileInode H → Prop}
    (h : ∀ x f, t.d.get? x = some f → p x f) (k : Nat) :
    ∀ x f, (t.delItem k).2.d.get? x = some f → p x f := by
  intro x f hx
  rcases t.delItem_d_get? k x with e | ⟨_, e⟩
  · exact h x f (e ▸ hx)
  · rw [e] at hx
    cases hx

theorem delItem_fst {k : Nat} (h : t.d.contains k = true) : (t.delItem k).1 = .ok () := by
  unfold delItem removeFromDisk
  cases toBytes 64 k with
  | none => rfl
  | some n =>
    dsimp only
    rw [if_pos h]

/-- A key that fits its database key is gone after `del`. -/
theorem delItem_d {k : Nat} (h : (toBytes 64 k).isSome) (hk : t.d.contains k = true) :
    (t.delItem k).2.d = t.d.erase k := by
  unfold delItem removeFromDisk
  obtain ⟨n, hn⟩ := Option.isSome_iff_exists.mp h
  rw [hn]
  dsimp only
  rw [if_pos hk]

end FSMeta

end VeratyFS
