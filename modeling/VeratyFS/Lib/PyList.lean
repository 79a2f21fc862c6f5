import Mathlib.Data.List.Basic

/-!
# Python list indexing and slicing

Indices are integers: a negative one counts from the end, an index out of range is an
`IndexError` (`none`), a slice bound out of range is clamped.

* `getAt?`, `popAt?`, `insertAt` — `l[i]`, `l.pop(i)`, `l.insert(i, x)`;
* `slice`, `sliceFrom`, `sliceTo`, `spliceAt` — `l[a:b]`, `l[a:]`, `l[:b]`, `l[a:b] = r`;
* `bisectLeft` — the number of leading elements below a value, which is what `bisect_left`
  returns on a sorted list;
* `countP_popAt_le`, `countP_insertAt` — popping and inserting against a count;
* `filterMap_set_same`, `filterMap_set_some`, `filterMap_set_none` — what a list of threads is busy
  with after one of them moved on.
-/

set_option autoImplicit false

namespace Pylib

variable {α : Type}

/-- The position an index means in a list of length `n`. -/
def index? (n : Nat) (i : Int) : Option Nat :=
  if 0 ≤ i ∧ i < n then some i.toNat
  else if i < 0 ∧ 0 ≤ i + n then some (i + n).toNat
  else none

/-- `l[i]`. -/
def getAt? (l : List α) (i : Int) : Option α := (index? l.length i).bind (l[·]?)

/-- `l[i] = x`, for an index in range. -/
def setAt (l : List α) (i : Int) (x : α) : List α :=
  match index? l.length i with
  | some j => l.set j x
  | none => l

/-- `l.pop(i)`: what is left. -/
def popAt? (l : List α) (i : Int) : Option (List α) := (index? l.length i).map l.eraseIdx

/-- A slice bound, counted from the end when negative and clamped to the list. -/
def bound (n : Nat) (i : Int) : Nat := if i < 0 then (i + n).toNat else min i.toNat n

/-- `l.insert(i, x)`. -/
def insertAt (l : List α) (i : Int) (x : α) : List α :=
  l.take (bound l.length i) ++ x :: l.drop (bound l.length i)

/-- `l[a:b]`. -/
def slice (l : List α) (a b : Int) : List α := (l.take (bound l.length b)).drop (bound l.length a)

/-- `l[a:]`. -/
def sliceFrom (l : List α) (a : Int) : List α := l.drop (bound l.length a)

/-- `l[:b]`. -/
def sliceTo (l : List α) (b : Int) : List α := l.take (bound l.length b)

/-- `l[a:b] = r`. -/
def spliceAt (l : List α) (a b : Int) (r : List α) : List α :=
  l.take (bound l.length a) ++ r ++ l.drop (max (bound l.length a) (bound l.length b))

/-- `bisect_left(l, x)` of a sorted list. -/
def bisectLeft (l : List Nat) (x : Nat) : Nat := (l.takeWhile (· < x)).length

theorem index?_lt {n j : Nat} {i : Int} (h : index? n i = some j) : j < n := by
  unfold index? at h
  split at h
  · cases h; omega
  · split at h
    · cases h; omega
    · cases h

theorem index?_natCast {n j : Nat} (h : j < n) : index? n (j : Int) = some j := by
  simp [index?, h]

theorem getAt?_natCast (l : List α) (j : Nat) : getAt? l (j : Int) = l[j]? := by
  unfold getAt?
  by_cases h : j < l.length
  · simp [index?_natCast h]
  · have : index? l.length (j : Int) = none := by
      unfold index?
      rw [if_neg (by omega), if_neg (by omega)]
    rw [this, List.getElem?_eq_none (by omega)]
    rfl

theorem getAt?_mem {l : List α} {i : Int} {x : α} (h : getAt? l i = some x) : x ∈ l := by
  unfold getAt? at h
  cases hi : index? l.length i with
  | none => simp [hi] at h
  | some j => exact List.mem_of_getElem? (by simpa [hi] using h)

theorem getAt?_isSome {l : List α} {i : Int} (h : (index? l.length i).isSome) :
    (getAt? l i).isSome := by
  obtain ⟨j, hj⟩ := Option.isSome_iff_exists.mp h
  simp [getAt?, hj, index?_lt hj]

@[simp] theorem length_setAt (l : List α) (i : Int) (x : α) : (setAt l i x).length = l.length := by
  unfold setAt
  split <;> simp

theorem slice_all {l : List α} {b : Int} (h : l.length ≤ b) : slice l 0 b = l := by
  have hb : bound l.length b = l.length := by
    unfold bound
    rw [if_neg (by omega)]
    omega
  have h₀ : bound l.length 0 = 0 := by simp [bound]
  rw [slice, hb, h₀, List.take_length, List.drop_zero]

theorem mem_of_mem_slice {l : List α} {a b : Int} {x : α} (h : x ∈ slice l a b) : x ∈ l :=
  List.mem_of_mem_take (List.mem_of_mem_drop h)

theorem countP_popAt_le {l l' : List α} {i : Int} (p : α → Bool) (h : popAt? l i = some l') :
    l'.countP p ≤ l.countP p := by
  unfold popAt? at h
  obtain ⟨j, _, rfl⟩ := Option.map_eq_some_iff.mp h
  exact (List.eraseIdx_sublist l j).countP_le

theorem countP_insertAt (p : α → Bool) (l : List α) (i : Int) (x : α) :
    (insertAt l i x).countP p = l.countP p + [x].countP p := by
  have h := congrArg (List.countP p) (List.take_append_drop (bound l.length i) l)
  rw [List.countP_append] at h
  unfold insertAt
  rw [List.countP_append, ← List.singleton_append, List.countP_append]
  omega

theorem getElem?_set_of {l : List α} {i : Nat} {x : α} (h : l[i]? = some x) (y : α) (j : Nat) :
    (l.set i y)[j]? = if i = j then some y else l[j]? := by
  have hi := (List.getElem?_eq_some_iff.mp h).1
  by_cases e : i = j
  · subst e
    simp [hi]
  · simp [e]

section FilterMap

variable {β : Type} {f : α → Option β} {l : List α} {i : Nat} {x y : α} {b : β}

theorem filterMap_set_same (h : l[i]? = some x) (hf : f y = f x) :
    (l.set i y).filterMap f = l.filterMap f := by
  obtain ⟨hi, rfl⟩ := List.getElem?_eq_some_iff.mp h
  obtain ⟨l₁, l₂, hl, _, hset⟩ := @List.exists_of_set _ _ y _ hi
  rw [hset, List.filterMap_append, List.filterMap_cons, hf]
  conv => rhs; rw [hl, List.filterMap_append, List.filterMap_cons]

theorem filterMap_set_some (h : l[i]? = some x) (hx : f x = none) (hy : f y = some b) :
    ((l.set i y).filterMap f).Perm (b :: l.filterMap f) := by
  obtain ⟨hi, rfl⟩ := List.getElem?_eq_some_iff.mp h
  obtain ⟨l₁, l₂, hl, _, hset⟩ := @List.exists_of_set _ _ y _ hi
  have hold : l.filterMap f = l₁.filterMap f ++ l₂.filterMap f := by
    conv => lhs; rw [hl]
    simp [hx]
  rw [hset, hold]
  simp [hy]

theorem filterMap_set_none (h : l[i]? = some x) (hx : f x = some b) (hy : f y = none) :
    (l.filterMap f).Perm (b :: (l.set i y).filterMap f) := by
  obtain ⟨hlt, rfl⟩ := List.getElem?_eq_some_iff.mp h
  have hset : (l.set i y)[i]? = some y := by simp [hlt]
  have hback : (l.set i y).set i l[i] = l := by simp
  have hperm := filterMap_set_some hset hy hx
  rwa [hback] at hperm

end FilterMap

end Pylib
