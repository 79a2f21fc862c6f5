import VeratyFS.Lib.Ranks

/-!
# The history of a cache

What was done to the keys of a cache, as a list of events with the newest first.  The functions below
read off it what a cache should hold and which key it should give up, whatever the cache does.

* `value` — the last value set for a key that was not deleted or evicted since.
* `uses`, `LeastRecent` — the keys in the order of their uses; the key that waits longest for one.
* `EvictsOldest` — every eviction was of the least recently used key.
* `entered`, `fresh` — the keys in the order of their entries; a key that was not used since its entry.
* `leastRecent_iff` — when the key that entered first is the least recently used.
-/

set_option autoImplicit false

namespace Pylib

inductive CacheEvent (κ α : Type) where
  | get (k : κ)
  | set (k : κ) (v : α)
  | delete (k : κ)
  | evict (k : κ)
  deriving DecidableEq, Repr

namespace Recency

variable {κ α : Type} [DecidableEq κ]

/-! ## What a history says -/

def value : List (CacheEvent κ α) → κ → Option α
  | [], _ => none
  | .get _ :: h, k => value h k
  | .set k' v :: h, k => if k' = k then some v else value h k
  | .delete k' :: h, k => if k' = k then none else value h k
  | .evict k' :: h, k => if k' = k then none else value h k

omit [DecidableEq κ] in
/-- The keys that were got or set, the last use first. -/
def uses : List (CacheEvent κ α) → List κ
  | [] => []
  | .get k :: h => k :: uses h
  | .set k _ :: h => k :: uses h
  | .delete _ :: h => uses h
  | .evict _ :: h => uses h

/-- Every other key that is present was used after the last use of `x`. -/
def LeastRecent (h : List (CacheEvent κ α)) (x : κ) : Prop :=
  ∀ y, y ≠ x → (value h y).isSome = true → precedes y x (uses h) = true

/-- Every evicted key was present, and the least recently used one. -/
def EvictsOldest : List (CacheEvent κ α) → Prop
  | [] => True
  | .get _ :: h => EvictsOldest h
  | .set _ _ :: h => EvictsOldest h
  | .delete _ :: h => EvictsOldest h
  | .evict x :: h => (value h x).isSome = true ∧ LeastRecent h x ∧ EvictsOldest h

/-- The keys that are present, in the order in which they entered. -/
def entered : List (CacheEvent κ α) → List κ
  | [] => []
  | .get _ :: h => entered h
  | .set k _ :: h => if (value h k).isSome then entered h else entered h ++ [k]
  | .delete k :: h => (entered h).erase k
  | .evict k :: h => (entered h).erase k

/-- The key was neither got nor overwritten since it entered. -/
def fresh : List (CacheEvent κ α) → κ → Bool
  | [], _ => true
  | .get k' :: h, k => if k' = k then false else fresh h k
  | .set k' _ :: h, k => if k' = k then (value h k).isNone else fresh h k
  | .delete _ :: h, k => fresh h k
  | .evict _ :: h, k => fresh h k

/-! ## Entries -/

/-- The keys that entered and did not leave are those with a value, each once. -/
theorem entered_spec (h : List (CacheEvent κ α)) :
    (entered h).Nodup ∧ ∀ k, k ∈ entered h ↔ (value h k).isSome = true := by
  induction h with
  | nil => exact ⟨List.nodup_nil, fun k => by simp [entered, value]⟩
  | cons e h ih =>
    obtain ⟨hnodup, hmem⟩ := ih
    cases e with
    | get k' => exact ⟨hnodup, hmem⟩
    | set k' v =>
      rw [entered]
      cases hk : (value h k').isSome with
      | true =>
        refine ⟨hnodup, fun k => ?_⟩
        rw [if_pos rfl, value]
        by_cases e : k' = k
        · subst e
          simp [hmem, hk]
        · rw [if_neg e, hmem]
      | false =>
        have hnew : k' ∉ entered h := fun hm => by
          rw [hmem, hk] at hm
          cases hm
        refine ⟨hnodup.append (List.nodup_singleton _) (List.disjoint_singleton.mpr hnew), fun k => ?_⟩
        rw [if_neg Bool.false_ne_true, List.mem_append, List.mem_singleton, hmem, value]
        by_cases e : k' = k
        · simp [e]
        · simp [e, Ne.symm e]
    | delete k' | evict k' =>
      refine ⟨hnodup.erase k', fun k => ?_⟩
      rw [entered, hnodup.mem_erase_iff, hmem, value]
      by_cases e : k' = k
      · simp [e]
      · simp [e, Ne.symm e]

theorem mem_entered {h : List (CacheEvent κ α)} {k : κ} :
    k ∈ entered h ↔ (value h k).isSome = true := (entered_spec h).2 k

/-- A use puts the key before all others. -/
theorem precedes_use {k x : κ} (y : κ) {l : List κ} (hk : k ≠ x) (h : y = k ∨ precedes y x l = true) :
    precedes y x (k :: l) = true := by
  rw [precedes, if_neg hk, Bool.or_eq_true, decide_eq_true_eq]
  exact h.imp Eq.symm id

/-- **Of two keys the one that entered later was used later**, if the other was not used again. -/
theorem entered_pairwise (h : List (CacheEvent κ α)) :
    (entered h).Pairwise fun x y => fresh h x = true → precedes y x (uses h) = true := by
  induction h with
  | nil => exact .nil
  | cons e h ih =>
    cases e with
    | get k =>
      refine ih.imp fun {x y} hxy hfresh => ?_
      rw [fresh] at hfresh
      split at hfresh
      · cases hfresh
      · rename_i hk
        exact precedes_use y hk (.inr (hxy hfresh))
    | set k v =>
      have hold : (entered h).Pairwise fun x y => fresh (.set k v :: h) x = true →
          precedes y x (uses (CacheEvent.set k v :: h)) = true := by
        refine ih.imp_of_mem fun {x y} hx _ hxy hfresh => ?_
        rw [fresh] at hfresh
        split at hfresh
        · -- an overwritten key is not fresh
          rename_i hk
          rw [mem_entered, ← Option.not_isNone, hfresh] at hx
          cases hx
        · rename_i hk
          exact precedes_use y hk (.inr (hxy hfresh))
      rw [entered]
      split
      · exact hold
      · rename_i hk
        refine List.pairwise_append.mpr ⟨hold, List.pairwise_singleton _ _, fun x hx y hy _ => ?_⟩
        have hne : k ≠ x := fun e => hk (e ▸ mem_entered.mp hx)
        exact precedes_use y hne (.inl (List.mem_singleton.mp hy))
    | delete k | evict k => exact ih.sublist List.erase_sublist

/-- The key that entered first is the least recently used one, unless it was used since and another
one was not used after that. -/
theorem leastRecent_iff {h : List (CacheEvent κ α)} {x : κ} {l : List κ} (he : entered h = x :: l) :
    LeastRecent h x ↔ (fresh h x = false → LeastRecent h x) := by
  refine ⟨fun hx _ => hx, fun hx => ?_⟩
  cases hfresh : fresh h x with
  | false => exact hx hfresh
  | true =>
    intro y hy hpresent
    have hpairs := entered_pairwise h
    rw [he] at hpairs
    have hmem : y ∈ x :: l := he ▸ mem_entered.mpr hpresent
    exact List.rel_of_pairwise_cons hpairs ((List.mem_cons.mp hmem).resolve_left hy) hfresh

end Recency

end Pylib
