import VeratyFS.Datastructures

/-!
# The bounded caches (`cache.py`)

`LRU` carries the two facts its constructor establishes: the bound is positive, and the entries
never exceed it.  `__setitem__` evicts `popitem`'s key (the first of the iteration order) when a
new key meets a full cache; nothing else is evicted.
-/

set_option autoImplicit false

namespace VeratyFS

open Pylib

structure LRU (κ α : Type) where
  maxlen : Nat
  d : Dict κ α
  maxlen_pos : 0 < maxlen
  size_le : d.size ≤ maxlen

namespace LRU

variable {κ α : Type} [DecidableEq κ]

/-- `LRU(maxlen)`, empty. -/
def new {κ α : Type} (maxlen : Nat) (h : 0 < maxlen) : LRU κ α :=
  ⟨maxlen, Dict.empty, h, Nat.zero_le _⟩

def get? (c : LRU κ α) (k : κ) : Option α := c.d.get? k

/-- The dictionary `__setitem__` writes to. -/
def room (c : LRU κ α) (k : κ) : Dict κ α :=
  if c.d.contains k = false ∧ c.d.size = c.maxlen then c.d.popFirst else c.d

/-- `__setitem__`. -/
def set (c : LRU κ α) (k : κ) (v : α) : LRU κ α where
  maxlen := c.maxlen
  d := (c.room k).set k v
  maxlen_pos := c.maxlen_pos
  size_le := by
    have hpos := c.maxlen_pos
    have hle := c.size_le
    unfold room
    split
    · have h₁ := c.d.size_popFirst
      have h₂ := c.d.popFirst.size_set_le k v
      omega
    · rename_i h
      cases hk : c.d.contains k with
      | true => rw [c.d.size_set_of_contains v hk]; exact hle
      | false =>
        have h₂ := c.d.size_set_le k v
        have : c.d.size ≠ c.maxlen := fun e => h ⟨hk, e⟩
        omega

/-- `__delitem__`, a missing key being ignored by every caller. -/
def erase (c : LRU κ α) (k : κ) : LRU κ α where
  maxlen := c.maxlen
  d := c.d.erase k
  maxlen_pos := c.maxlen_pos
  size_le := Nat.le_trans (c.d.size_erase_le k) c.size_le

@[simp] theorem get?_new (n : Nat) (h : 0 < n) (k : κ) : (new n h : LRU κ α).get? k = none := rfl

@[simp] theorem get?_set_self (c : LRU κ α) (k : κ) (v : α) : (c.set k v).get? k = some v := by
  simp [get?, set]

@[simp] theorem get?_erase (c : LRU κ α) (k k' : κ) :
    (c.erase k).get? k' = if k = k' then none else c.get? k' := c.d.get?_erase k k'

/-- An entry found after `__setitem__` is the one set or was there before. -/
theorem get?_set {c : LRU κ α} {k k' : κ} {v v' : α} (h : (c.set k v).get? k' = some v') :
    (k = k' ∧ v = v') ∨ c.get? k' = some v' := by
  have h' : ((c.room k).set k v).get? k' = some v' := h
  rw [Dict.get?_set] at h'
  split at h'
  · rename_i e
    exact .inl ⟨e, Option.some.inj h'⟩
  · refine .inr ?_
    unfold room at h'
    split at h'
    · exact c.d.get?_popFirst h'
    · exact h'

end LRU

end VeratyFS
