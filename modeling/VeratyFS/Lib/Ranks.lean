import VeratyFS.Lib.Dict

/-!
# Places in a filtered list

How many of the elements that a test allows stand before a given one, and what becomes of this number
when the list or the test changes.

* `rank`, `precedes` — the place of an element among the allowed ones; which elements stand before it.
* `getElem?_filter_iff` — the place is the index in the filtered list.
* `rank_change`, `rank_append`, `rank_erase`, `rank_last` — one answer of the test changes, elements
  are added at the end, one is taken out, one is put at the end.
-/

set_option autoImplicit false

namespace Pylib

variable {α : Type} [DecidableEq α] {p p' : α → Bool} {k x : α} {l m : List α}

/-- The allowed elements before the first `x`. -/
def rank (p : α → Bool) (x : α) : List α → Nat
  | [] => 0
  | y :: l => if y = x then 0 else (if p y then 1 else 0) + rank p x l

/-- `k` stands before the first `x`. -/
def precedes (k x : α) : List α → Bool
  | [] => false
  | y :: l => if y = x then false else decide (y = k) || precedes k x l

theorem precedes_of_not_mem (h : k ∉ l) : precedes k x l = false := by
  induction l with
  | nil => rfl
  | cons y l ih =>
    obtain ⟨hy, hl⟩ := not_or.mp (mt List.mem_cons.mpr h)
    rw [precedes]
    split
    · rfl
    · rw [decide_eq_false (Ne.symm hy), ih hl]
      rfl

theorem getElem?_filter_iff (hl : l.Nodup) {i : Nat} :
    (l.filter p)[i]? = some x ↔ x ∈ l ∧ p x = true ∧ rank p x l = i := by
  induction l generalizing i with
  | nil => simp
  | cons y l ih =>
    obtain ⟨hy, hl⟩ := List.nodup_cons.mp hl
    rw [rank, List.filter_cons]
    by_cases hxy : y = x
    · subst hxy
      rw [if_pos rfl]
      by_cases hp : p y = true
      · rw [if_pos hp]
        cases i with
        | zero => simp [hp]
        | succ i =>
          rw [List.getElem?_cons_succ, ih hl]
          simp [hy]
      · rw [if_neg hp, ih hl]
        simp [hy, hp]
    · have hmem : x ∈ y :: l ↔ x ∈ l := by simp [Ne.symm hxy]
      rw [if_neg hxy, hmem]
      by_cases hp : p y = true
      · rw [if_pos hp, if_pos hp]
        cases i with
        | zero => simp [hxy]
        | succ i =>
          rw [List.getElem?_cons_succ, ih hl]
          refine and_congr_right fun _ => and_congr_right fun _ => ?_
          omega
      · rw [if_neg hp, if_neg hp, ih hl, Nat.zero_add]

theorem rank_lt_length (hl : l.Nodup) (hx : x ∈ l) (hp : p x = true) :
    rank p x l < (l.filter p).length := by
  have hget := (getElem?_filter_iff hl).mpr ⟨hx, hp, rfl⟩
  exact (List.getElem?_eq_some_iff.mp hget).1

theorem rank_congr (h : ∀ y, p' y = p y) : rank p' x l = rank p x l := by
  rw [funext h]

/-- The test changes its answer for one element. -/
theorem rank_change (hl : l.Nodup) (h : ∀ y, y ≠ k → p' y = p y) :
    rank p' x l + (if precedes k x l && p k then 1 else 0) =
      rank p x l + (if precedes k x l && p' k then 1 else 0) := by
  induction l with
  | nil => rfl
  | cons y l ih =>
    obtain ⟨hy, hl⟩ := List.nodup_cons.mp hl
    rw [rank, rank, precedes]
    by_cases hxy : y = x
    · simp [hxy]
    · rw [if_neg hxy, if_neg hxy, if_neg hxy]
      have hrest := ih hl
      by_cases hk : y = k
      · -- the element is here, and nowhere else
        subst hk
        rw [precedes_of_not_mem hy] at hrest
        simp only [Bool.false_and, Bool.false_eq_true, if_false, Nat.add_zero] at hrest
        rw [hrest, decide_eq_true rfl, Bool.true_or, Bool.true_and, Bool.true_and]
        omega
      · rw [h y hk, decide_eq_false hk, Bool.false_or]
        omega

theorem rank_append (hx : x ∈ l) : rank p x (l ++ m) = rank p x l := by
  induction l with
  | nil => cases hx
  | cons y l ih =>
    rw [List.cons_append, rank, rank]
    split
    · rfl
    · rename_i hxy
      rw [ih ((List.mem_cons.mp hx).resolve_left (Ne.symm hxy))]

/-- An element is taken out. -/
theorem rank_erase (hl : l.Nodup) (hx : x ≠ k) :
    rank p x (l.erase k) + (if precedes k x l && p k then 1 else 0) = rank p x l := by
  induction l with
  | nil => rfl
  | cons y l ih =>
    obtain ⟨hy, hl⟩ := List.nodup_cons.mp hl
    rw [rank, precedes]
    by_cases hk : y = k
    · subst hk
      rw [List.erase_cons_head, if_neg (Ne.symm hx), if_neg (Ne.symm hx), decide_eq_true rfl,
        Bool.true_or, Bool.true_and]
      omega
    · rw [List.erase_cons_tail (by simpa using hk), rank, decide_eq_false hk, Bool.false_or]
      split
      · rfl
      · have := ih hl
        omega

/-- An element at the end has all others before it. -/
theorem rank_last (hx : x ∉ l) : rank p x (l ++ [x]) = (l.filter p).length := by
  induction l with
  | nil => simp [rank]
  | cons y l ih =>
    obtain ⟨hy, hl⟩ := not_or.mp (mt List.mem_cons.mpr hx)
    rw [List.cons_append, rank, if_neg (Ne.symm hy), ih hl, List.filter_cons]
    split
    · rw [List.length_cons]
      omega
    · exact Nat.zero_add _

end Pylib
