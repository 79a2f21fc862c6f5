import Mathlib.Algebra.Order.Ring.Int
import Mathlib.Algebra.Order.BigOperators.Group.List
import Mathlib.Data.List.Nodup
import Mathlib.Algebra.Order.Ring.Nat
import Mathlib.Data.List.Perm.Subperm

/-!
# Insertion-ordered dictionaries

A Python `dict` keeps its entries in insertion order: overwriting a key leaves it where it is,
deleting and setting it again moves it to the end, and `next(iter(d))` is the oldest entry.
`Dict κ α` is the list of entries together with the fact that no key occurs twice.

* `get?_set`, `get?_erase`, `get?_modify`, `get?_update` — what a lookup sees after an update;
* `mem_entries_iff`, `entries_perm` — the entries are the graph of `get?`;
* `total_set`, `total_erase` — how a sum over the values changes with one entry; `sum_le_total`,
  `sum_eq_total` — the sum of a list that the dictionary covers.
-/

set_option autoImplicit false

namespace Pylib

variable {κ α : Type} [DecidableEq κ]

/-! ## Association lists -/

def lookup (k : κ) : List (κ × α) → Option α
  | [] => none
  | (k', a) :: l => if k' = k then some a else lookup k l

/-- Overwrite `k` where it stands, or append it. -/
def assign (k : κ) (a : α) : List (κ × α) → List (κ × α)
  | [] => [(k, a)]
  | (k', b) :: l => if k' = k then (k', a) :: l else (k', b) :: assign k a l

def discard (k : κ) : List (κ × α) → List (κ × α)
  | [] => []
  | (k', b) :: l => if k' = k then l else (k', b) :: discard k l

theorem lookup_assign (k k' : κ) (a : α) (l : List (κ × α)) :
    lookup k' (assign k a l) = if k = k' then some a else lookup k' l := by
  induction l with
  | nil => simp [assign, lookup]
  | cons e l ih =>
    obtain ⟨k₀, b⟩ := e
    by_cases h₀ : k₀ = k
    · subst h₀
      by_cases h : k₀ = k' <;> simp [assign, lookup, h]
    · by_cases h : k₀ = k'
      · subst h
        simp [assign, lookup, h₀, Ne.symm h₀]
      · simp [assign, lookup, h₀, h, ih]

theorem lookup_eq_none {k : κ} {l : List (κ × α)} : lookup k l = none ↔ k ∉ l.map Prod.fst := by
  induction l with
  | nil => simp [lookup]
  | cons e l ih =>
    obtain ⟨k₀, b⟩ := e
    by_cases h : k₀ = k
    · simp [lookup, h]
    · simp only [lookup, if_neg h, ih, List.map_cons, List.mem_cons, not_or]
      exact ⟨fun hk => ⟨fun e => h e.symm, hk⟩, fun hk => hk.2⟩

theorem lookup_discard {k k' : κ} {l : List (κ × α)} (hl : (l.map Prod.fst).Nodup) :
    lookup k' (discard k l) = if k = k' then none else lookup k' l := by
  induction l with
  | nil => simp [discard, lookup]
  | cons e l ih =>
    obtain ⟨k₀, b⟩ := e
    rw [List.map_cons, List.nodup_cons] at hl
    by_cases h₀ : k₀ = k
    · subst h₀
      by_cases h : k₀ = k'
      · subst h
        simpa [discard] using lookup_eq_none.mpr hl.1
      · simp [discard, lookup, h]
    · by_cases h : k₀ = k'
      · subst h
        simp [discard, lookup, h₀, Ne.symm h₀]
      · simp [discard, lookup, h₀, h, ih hl.2]

/-- An entry that is overwritten and deleted is deleted. -/
theorem discard_assign (k : κ) (a : α) (l : List (κ × α)) :
    discard k (assign k a l) = discard k l := by
  induction l with
  | nil => simp [assign, discard]
  | cons e l ih =>
    obtain ⟨k₀, b⟩ := e
    by_cases h : k₀ = k
    · simp [assign, discard, h]
    · simp [assign, discard, h, ih]

theorem lookup_eq_some {k : κ} {a : α} {l : List (κ × α)} (hl : (l.map Prod.fst).Nodup) :
    lookup k l = some a ↔ (k, a) ∈ l := by
  induction l with
  | nil => simp [lookup]
  | cons e l ih =>
    obtain ⟨k₀, b⟩ := e
    rw [List.map_cons, List.nodup_cons] at hl
    by_cases h : k₀ = k
    · subst h
      have hk : (k₀, a) ∉ l := fun hm => hl.1 (List.mem_map.mpr ⟨_, hm, rfl⟩)
      simp [lookup, hk, eq_comm]
    · have hne : ¬ k = k₀ := fun e => h e.symm
      simp [lookup, h, hne, ih hl.2]

theorem assign_keys (k : κ) (a : α) (l : List (κ × α)) :
    (assign k a l).map Prod.fst =
      if k ∈ l.map Prod.fst then l.map Prod.fst else l.map Prod.fst ++ [k] := by
  induction l with
  | nil => simp [assign]
  | cons e l ih =>
    obtain ⟨k₀, b⟩ := e
    by_cases h : k₀ = k
    · simp [assign, h]
    · have hne : ¬ k = k₀ := fun e => h e.symm
      rw [assign, if_neg h, List.map_cons, List.map_cons, ih]
      by_cases hm : k ∈ l.map Prod.fst
      · rw [if_pos hm, if_pos (List.mem_cons_of_mem _ hm)]
      · rw [if_neg hm, if_neg (by simpa [hne] using hm)]
        rfl

theorem assign_of_not_mem {k : κ} {l : List (κ × α)} (h : k ∉ l.map Prod.fst) (a : α) :
    assign k a l = l ++ [(k, a)] := by
  induction l with
  | nil => rfl
  | cons e l ih =>
    rw [List.map_cons, List.mem_cons, not_or] at h
    rw [assign, if_neg (Ne.symm h.1), ih h.2, List.cons_append]

theorem discard_keys (k : κ) (l : List (κ × α)) :
    (discard k l).map Prod.fst = (l.map Prod.fst).erase k := by
  induction l with
  | nil => rfl
  | cons e l ih =>
    obtain ⟨k₀, b⟩ := e
    by_cases h : k₀ = k
    · simp [discard, h]
    · rw [discard, if_neg h, List.map_cons, ih, List.map_cons, List.erase_cons_tail (by simpa using h)]

/-! ## Dictionaries -/

/-- A Python `dict`: entries in insertion order, one for each key. -/
structure Dict (κ α : Type) where
  entries : List (κ × α)
  nodup : (entries.map Prod.fst).Nodup

namespace Dict

variable (d : Dict κ α)

def empty {κ α : Type} : Dict κ α := ⟨[], List.nodup_nil⟩

def get? (k : κ) : Option α := lookup k d.entries

/-- `k in d`. -/
def contains (k : κ) : Bool := (d.get? k).isSome

/-- `d[k] = a`. -/
def set (k : κ) (a : α) : Dict κ α where
  entries := assign k a d.entries
  nodup := by
    rw [assign_keys]
    split
    · exact d.nodup
    · rename_i hk
      rw [List.nodup_append]
      refine ⟨d.nodup, by simp, ?_⟩
      intro x hx y hy hxy
      rw [List.mem_singleton] at hy
      exact hk (hy ▸ hxy ▸ hx)

/-- `d.pop(k, None)`. -/
def erase (k : κ) : Dict κ α where
  entries := discard k d.entries
  nodup := by rw [discard_keys]; exact d.nodup.erase k

/-- The object stored under `k`, mutated in place. -/
def modify (k : κ) (f : α → α) : Dict κ α :=
  match d.get? k with
  | none => d
  | some a => d.set k (f a)

def keys : List κ := d.entries.map Prod.fst

/-- `len(d)`. -/
def size : Nat := d.entries.length

/-- `MutableMapping.popitem`: drop the first key of the iteration order. -/
def popFirst {κ α : Type} (d : Dict κ α) : Dict κ α where
  entries := d.entries.tail
  nodup := by
    rw [List.map_tail]
    exact d.nodup.tail

/-- `for k, a in batch: d[k] = a`. -/
def update (batch : Dict κ α) : Dict κ α := batch.entries.foldl (fun d e => d.set e.1 e.2) d

/-- The sum of `f` over the values. -/
def total {κ α : Type} (f : α → Nat) (d : Dict κ α) : Nat := (d.entries.map fun e => f e.2).sum

@[simp] theorem get?_empty (k : κ) : (empty : Dict κ α).get? k = none := rfl

@[simp] theorem get?_set (k k' : κ) (a : α) :
    (d.set k a).get? k' = if k = k' then some a else d.get? k' := lookup_assign k k' a d.entries

theorem get?_set_self (k : κ) (a : α) : (d.set k a).get? k = some a := by simp

theorem get?_set_ne {k k' : κ} (a : α) (h : k ≠ k') : (d.set k a).get? k' = d.get? k' := by
  simp [h]

@[simp] theorem get?_erase (k k' : κ) : (d.erase k).get? k' = if k = k' then none else d.get? k' :=
  lookup_discard d.nodup

/-- What holds of the entries and of a new one holds after the new one is set. -/
theorem forall_set {p : κ → α → Prop} {k : κ} {a : α} (h : ∀ k' a', d.get? k' = some a' → p k' a')
    (ha : p k a) : ∀ k' a', (d.set k a).get? k' = some a' → p k' a' := by
  intro k' a' hk'
  rw [get?_set] at hk'
  split at hk'
  · rename_i hk
    cases hk'
    exact hk ▸ ha
  · exact h k' a' hk'

theorem forall_erase {p : κ → α → Prop} (h : ∀ k' a', d.get? k' = some a' → p k' a') (k : κ) :
    ∀ k' a', (d.erase k).get? k' = some a' → p k' a' := by
  intro k' a' hk'
  rw [get?_erase] at hk'
  split at hk'
  · cases hk'
  · exact h k' a' hk'

theorem erase_modify (k : κ) (f : α → α) : (d.modify k f).erase k = d.erase k := by
  unfold modify
  cases d.get? k with
  | none => rfl
  | some a =>
    unfold erase set
    congr 1
    exact discard_assign k (f a) d.entries

@[simp] theorem get?_modify (k k' : κ) (f : α → α) :
    (d.modify k f).get? k' = if k = k' then (d.get? k').map f else d.get? k' := by
  unfold modify
  cases h : d.get? k with
  | none =>
    by_cases e : k = k'
    · subst e; simp [h]
    · simp [e]
  | some a =>
    by_cases e : k = k'
    · subst e; simp [h]
    · simp [e]

theorem mem_entries_iff {k : κ} {a : α} : (k, a) ∈ d.entries ↔ d.get? k = some a :=
  (lookup_eq_some d.nodup).symm

theorem contains_iff {k : κ} : d.contains k = true ↔ ∃ a, d.get? k = some a :=
  Option.isSome_iff_exists

theorem contains_eq_false {k : κ} : d.contains k = false ↔ d.get? k = none := by
  unfold contains
  simp

theorem mem_keys_iff {k : κ} : k ∈ d.keys ↔ ∃ a, d.get? k = some a := by
  unfold keys
  constructor
  · intro h
    obtain ⟨⟨k', a⟩, hm, rfl⟩ := List.mem_map.mp h
    exact ⟨a, d.mem_entries_iff.mp hm⟩
  · rintro ⟨a, h⟩
    exact List.mem_map.mpr ⟨_, d.mem_entries_iff.mpr h, rfl⟩

theorem keys_set_of_mem {k : κ} (a : α) (h : k ∈ d.keys) : (d.set k a).keys = d.keys :=
  (assign_keys k a d.entries).trans (if_pos h)

theorem keys_set_of_not_mem {k : κ} (a : α) (h : k ∉ d.keys) : (d.set k a).keys = d.keys ++ [k] :=
  (assign_keys k a d.entries).trans (if_neg h)

theorem keys_modify (k : κ) (f : α → α) : (d.modify k f).keys = d.keys := by
  unfold modify
  cases h : d.get? k with
  | none => rfl
  | some a => exact d.keys_set_of_mem _ (d.mem_keys_iff.mpr ⟨a, h⟩)

theorem keys_erase (k : κ) : (d.erase k).keys = d.keys.erase k := discard_keys k d.entries

/-- A dictionary with one key more than another has the same entries, and that of the key. -/
theorem entries_perm {d d' : Dict κ α} {k : κ} {a : α} (hk : d'.get? k = none)
    (h : ∀ x, d.get? x = if k = x then some a else d'.get? x) :
    d.entries.Perm ((k, a) :: d'.entries) := by
  have hnew : (k, a) ∉ d'.entries := fun hm => by
    rw [d'.mem_entries_iff.mp hm] at hk
    cases hk
  refine (List.perm_ext_iff_of_nodup (List.Nodup.of_map _ d.nodup)
    (List.nodup_cons.mpr ⟨hnew, List.Nodup.of_map _ d'.nodup⟩)).mpr fun e => ?_
  obtain ⟨x, b⟩ := e
  rw [List.mem_cons, d.mem_entries_iff, d'.mem_entries_iff, h, Prod.mk.injEq]
  by_cases hx : k = x
  · subst hx
    simp [hk, eq_comm]
  · simp [hx, Ne.symm hx]

theorem entries_perm_of_get? {d d' : Dict κ α} (h : ∀ x, d.get? x = d'.get? x) :
    d.entries.Perm d'.entries := by
  refine (List.perm_ext_iff_of_nodup (List.Nodup.of_map _ d.nodup)
    (List.Nodup.of_map _ d'.nodup)).mpr fun e => ?_
  obtain ⟨x, b⟩ := e
  rw [d.mem_entries_iff, d'.mem_entries_iff, h]

/-- The entry of a key, and the others. -/
theorem entries_erase {k : κ} {a : α} (hk : d.get? k = some a) :
    d.entries.Perm ((k, a) :: (d.erase k).entries) := by
  refine entries_perm (by rw [get?_erase, if_pos rfl]) fun x => ?_
  rw [get?_erase]
  split
  · rename_i hx
    rw [← hx, hk]
  · rfl

theorem entries_erase_missing {k : κ} (hk : d.get? k = none) :
    d.entries.Perm (d.erase k).entries := by
  refine entries_perm_of_get? fun x => ?_
  rw [get?_erase]
  split
  · rename_i hx
    rw [← hx, hk]
  · rfl

/-- Dictionaries that differ at one key only. -/
theorem entries_erase_congr {d d' : Dict κ α} {k : κ} (h : ∀ x, x ≠ k → d.get? x = d'.get? x) :
    (d.erase k).entries.Perm (d'.erase k).entries := by
  refine entries_perm_of_get? fun x => ?_
  rw [get?_erase, get?_erase]
  split
  · rfl
  · rename_i hx
    exact h x (Ne.symm hx)

/-- What is left after `popFirst` was there before. -/
theorem get?_popFirst {k : κ} {a : α} (h : d.popFirst.get? k = some a) : d.get? k = some a :=
  d.mem_entries_iff.mp (List.mem_of_mem_tail (d.popFirst.mem_entries_iff.mpr h))

omit [DecidableEq κ] in
theorem size_popFirst : d.popFirst.size = d.size - 1 := List.length_tail

theorem size_eq_zero : d.size = 0 ↔ ∀ k, d.get? k = none := by
  constructor
  · intro h k
    cases hk : d.get? k with
    | none => rfl
    | some a =>
      rw [size, List.length_eq_zero_iff] at h
      have := d.mem_entries_iff.mpr hk
      rw [h] at this
      cases this
  · intro h
    rw [size, List.length_eq_zero_iff]
    refine List.eq_nil_iff_forall_not_mem.mpr fun e he => ?_
    have := d.mem_entries_iff.mp he
    rw [h] at this
    cases this

theorem size_set_of_contains {k : κ} (a : α) (h : d.contains k = true) :
    (d.set k a).size = d.size := by
  have hk : k ∈ d.entries.map Prod.fst := d.mem_keys_iff.mpr (d.contains_iff.mp h)
  have := congrArg List.length (assign_keys k a d.entries)
  simpa [hk, size, set] using this

theorem size_set_le (k : κ) (a : α) : (d.set k a).size ≤ d.size + 1 := by
  have := congrArg List.length (assign_keys k a d.entries)
  simp only [List.length_map] at this
  unfold size set
  rw [this]
  split <;> simp

theorem size_erase_le (k : κ) : (d.erase k).size ≤ d.size := by
  have := congrArg List.length (discard_keys k d.entries)
  simp only [List.length_map] at this
  unfold size erase
  rw [this]
  simpa using List.length_erase_le (a := k) (l := d.entries.map Prod.fst)

/-! ## Batches -/

theorem get?_foldl_set (l : List (κ × α)) (hl : (l.map Prod.fst).Nodup) (k : κ) :
    ∀ d : Dict κ α,
      (l.foldl (fun d e => d.set e.1 e.2) d).get? k = (lookup k l).orElse fun _ => d.get? k := by
  induction l with
  | nil => intro d; rfl
  | cons e l ih =>
    intro d
    obtain ⟨k₀, a⟩ := e
    rw [List.map_cons, List.nodup_cons] at hl
    rw [List.foldl_cons, ih hl.2]
    by_cases h : k₀ = k
    · subst h
      simp [lookup, lookup_eq_none.mpr hl.1]
    · simp [lookup, h]

omit [DecidableEq κ] in
theorem fst_filterMap_sublist {β : Type} (n : β → κ) (f : β → Option α) (l : List β) :
    ((l.filterMap fun b => (f b).map (n b, ·)).map Prod.fst).Sublist (l.map n) := by
  induction l with
  | nil => exact .slnil
  | cons b l ih =>
    rw [List.filterMap_cons, List.map_cons]
    cases f b with
    | none => exact ih.cons _
    | some a => exact ih.cons_cons _

/-- A dictionary filled from a list, whose elements have different keys. -/
theorem get?_foldl_filterMap {β : Type} (n : β → κ) (f : β → Option α) {l : List β}
    (hl : (l.map n).Nodup) {k : κ} {a : α} :
    ((l.filterMap fun b => (f b).map (n b, ·)).foldl (fun d e => d.set e.1 e.2) empty).get? k =
      some a ↔ ∃ b ∈ l, n b = k ∧ f b = some a := by
  have hnodup := (fst_filterMap_sublist n f l).nodup hl
  rw [get?_foldl_set _ hnodup, get?_empty]
  have hlookup : ∀ o : Option α, (o.orElse fun _ => none) = o := fun o => by cases o <;> rfl
  rw [hlookup, lookup_eq_some hnodup, List.mem_filterMap]
  constructor
  · rintro ⟨b, hb, h⟩
    obtain ⟨a', ha', heq⟩ := Option.map_eq_some_iff.mp h
    obtain ⟨rfl, rfl⟩ := Prod.mk.inj heq
    exact ⟨b, hb, rfl, ha'⟩
  · rintro ⟨b, hb, rfl, h⟩
    exact ⟨b, hb, by rw [h]; rfl⟩

theorem get?_update (batch : Dict κ α) (k : κ) :
    (d.update batch).get? k = (batch.get? k).orElse fun _ => d.get? k :=
  get?_foldl_set batch.entries batch.nodup k d

/-! ## Sums over the values -/

theorem total_assign (f : α → Nat) (k : κ) (a : α) (l : List (κ × α)) :
    ((assign k a l).map fun e => f e.2).sum + ((lookup k l).map f).getD 0 =
      (l.map fun e => f e.2).sum + f a := by
  induction l with
  | nil => simp [assign, lookup]
  | cons e l ih =>
    obtain ⟨k₀, b⟩ := e
    by_cases h : k₀ = k
    · simp [assign, lookup, h]
      omega
    · simp only [assign, lookup, if_neg h, List.map_cons, List.sum_cons]
      omega

theorem total_discard (f : α → Nat) (k : κ) (l : List (κ × α)) :
    ((discard k l).map fun e => f e.2).sum + ((lookup k l).map f).getD 0 =
      (l.map fun e => f e.2).sum := by
  induction l with
  | nil => simp [discard, lookup]
  | cons e l ih =>
    obtain ⟨k₀, b⟩ := e
    by_cases h : k₀ = k
    · simp [discard, lookup, h]
      omega
    · simp only [discard, lookup, if_neg h, List.map_cons, List.sum_cons]
      omega

theorem total_congr_entries {β : Type} (f : α → Nat) (f' : β → Nat) :
    ∀ (l : List (κ × α)) (l' : List (κ × β)), (l.map Prod.fst).Nodup → (l'.map Prod.fst).Nodup →
      (∀ k, ((lookup k l).map f).getD 0 = ((lookup k l').map f').getD 0) →
      (l.map fun e => f e.2).sum = (l'.map fun e => f' e.2).sum
  | [], l', _, hl', h => by
    symm
    rw [List.map_nil, List.sum_nil, List.sum_eq_zero_iff_forall_eq_nat]
    intro x hx
    obtain ⟨⟨k, b⟩, hm, rfl⟩ := List.mem_map.mp hx
    have hk := h k
    rw [(lookup_eq_some hl').mpr hm] at hk
    exact hk.symm
  | (k, a) :: l, l', hl, hl', h => by
    rw [List.map_cons, List.nodup_cons] at hl
    have hrest := total_congr_entries f f' l (discard k l') hl.2
      (by rw [discard_keys]; exact hl'.erase k) fun k' => by
        have hk' := h k'
        rw [lookup_discard hl']
        by_cases e : k = k'
        · subst e
          rw [if_pos rfl, lookup_eq_none.mpr hl.1]
          rfl
        · rw [if_neg e]
          rwa [lookup, if_neg e] at hk'
    have hk := h k
    rw [lookup, if_pos rfl] at hk
    have hd := total_discard f' k l'
    simp only [Option.map_some, Option.getD_some] at hk
    rw [List.map_cons, List.sum_cons]
    dsimp only
    omega

/-- A sum depends on what the lookups answer, not on the order of the entries. -/
theorem total_congr {β : Type} {d : Dict κ α} {d' : Dict κ β} {f : α → Nat} {f' : β → Nat}
    (h : ∀ k, ((d.get? k).map f).getD 0 = ((d'.get? k).map f').getD 0) : d.total f = d'.total f' :=
  total_congr_entries f f' d.entries d'.entries d.nodup d'.nodup h

theorem total_set (f : α → Nat) (k : κ) (a : α) :
    (d.set k a).total f + ((d.get? k).map f).getD 0 = d.total f + f a :=
  total_assign f k a d.entries

theorem total_erase (f : α → Nat) (k : κ) :
    (d.erase k).total f + ((d.get? k).map f).getD 0 = d.total f :=
  total_discard f k d.entries

theorem total_eq_zero {f : α → Nat} : d.total f = 0 ↔ ∀ k a, d.get? k = some a → f a = 0 := by
  unfold total
  rw [List.sum_eq_zero_iff_forall_eq_nat]
  constructor
  · intro h k a hk
    exact h _ (List.mem_map.mpr ⟨_, d.mem_entries_iff.mpr hk, rfl⟩)
  · intro h x hx
    obtain ⟨⟨k, a⟩, hm, rfl⟩ := List.mem_map.mp hx
    exact h k a (d.mem_entries_iff.mp hm)

omit [DecidableEq κ] in
theorem total_add (f g : α → Nat) : (d.total fun a => f a + g a) = d.total f + d.total g :=
  List.sum_map_add

section Covered

variable {β : Type} {f : α → Nat} {g : β → Nat} {l : List (κ × β)}

theorem keyed_subset (h : ∀ e ∈ l, ∃ a, d.get? e.1 = some a ∧ f a = g e.2) :
    (l.map fun e => (e.1, g e.2)) ⊆ d.entries.map fun e => (e.1, f e.2) := by
  intro p hp
  obtain ⟨e, he, rfl⟩ := List.mem_map.mp hp
  obtain ⟨a, ha, heq⟩ := h e he
  exact List.mem_map.mpr ⟨(e.1, a), d.mem_entries_iff.mpr ha, by rw [heq]⟩

/-- The sums agree where the list has every key. -/
theorem sum_eq_total (hl : (l.map Prod.fst).Nodup)
    (h : ∀ e ∈ l, ∃ a, d.get? e.1 = some a ∧ f a = g e.2)
    (hall : ∀ k a, d.get? k = some a → k ∈ l.map Prod.fst) :
    (l.map fun e => g e.2).sum = d.total f := by
  have hnodup : (l.map fun e => (e.1, g e.2)).Nodup :=
    List.Nodup.of_map Prod.fst (by rwa [List.map_map])
  have hnodup' : (d.entries.map fun e => (e.1, f e.2)).Nodup :=
    List.Nodup.of_map Prod.fst (by rw [List.map_map]; exact d.nodup)
  have hback : (d.entries.map fun e => (e.1, f e.2)) ⊆ l.map fun e => (e.1, g e.2) := by
    intro p hp
    obtain ⟨⟨k, a⟩, ha, rfl⟩ := List.mem_map.mp hp
    have hget := d.mem_entries_iff.mp ha
    obtain ⟨e, he, rfl⟩ := List.mem_map.mp (hall k a hget)
    obtain ⟨a', ha', heq⟩ := h e he
    rw [hget] at ha'
    cases ha'
    exact List.mem_map.mpr ⟨e, he, by rw [heq]⟩
  have hperm := (List.perm_ext_iff_of_nodup hnodup hnodup').mpr fun p =>
    ⟨fun hp => d.keyed_subset h hp, fun hp => hback hp⟩
  have hsum := (hperm.map Prod.snd).sum_eq
  rw [List.map_map, List.map_map] at hsum
  exact hsum

end Covered

end Dict

end Pylib
