import Mathlib.Algebra.Ring.Nat
import VeratyFS.Lib.PyList

/-!
# A sequence cut into pieces

A list of pieces, the sequence they make up, and the sizes of the pieces.

* `cut ns i` — where the `i`-th piece of the sizes `ns` starts; `flatten_range`: a range of pieces
  is the range of the sequence between two cuts.
* `sums` — where the pieces end, as running sums; `pieceAt`: the piece in which a position falls.
* `chosen`, `thin` — elements by their positions; every other element.
* `slice_natCast`, `sliceFrom_neg`, `sliceTo_neg`, `spliceAt_natCast` — Python slices of a sequence.
-/

set_option autoImplicit false

namespace Pylib

variable {α : Type}

/-! ## Cuts -/

/-- Where the `i`-th piece starts. -/
def cut (ns : List Nat) (i : Nat) : Nat := (ns.take i).sum

/-- The sizes of pieces. -/
def sizes (ps : List (List α)) : List Nat := ps.map List.length

@[simp] theorem length_sizes (ps : List (List α)) : (sizes ps).length = ps.length := List.length_map _

@[simp] theorem cut_zero (ns : List Nat) : cut ns 0 = 0 := rfl

theorem cut_length (ns : List Nat) : cut ns ns.length = ns.sum := by
  unfold cut
  rw [List.take_length]

theorem cut_cons (n : Nat) (ns : List Nat) (i : Nat) : cut (n :: ns) (i + 1) = n + cut ns i := by
  unfold cut
  rw [List.take_succ_cons, List.sum_cons]

theorem cut_succ {ns : List Nat} {i n : Nat} (h : ns[i]? = some n) : cut ns (i + 1) = cut ns i + n := by
  unfold cut
  rw [List.take_add_one, h, List.sum_append]
  simp

theorem cut_mono (ns : List Nat) {i j : Nat} (h : i ≤ j) : cut ns i ≤ cut ns j := by
  induction ns generalizing i j with
  | nil => exact Nat.le_of_eq (by simp [cut])
  | cons n ns ih =>
    cases i with
    | zero => exact Nat.zero_le _
    | succ i =>
      cases j with
      | zero => omega
      | succ j =>
        rw [cut_cons, cut_cons]
        have := ih (i := i) (j := j) (by omega)
        omega

theorem cut_le (ns : List Nat) (i : Nat) : cut ns i ≤ ns.sum := by
  rw [← cut_length ns]
  by_cases h : i ≤ ns.length
  · exact cut_mono ns h
  · have hall : ns.take i = ns := List.take_of_length_le (by omega)
    unfold cut
    exact Nat.le_of_eq (by rw [hall, List.take_length])

theorem sum_sizes (ps : List (List α)) : (sizes ps).sum = ps.flatten.length :=
  List.length_flatten.symm

theorem cut_sizes (ps : List (List α)) (i : Nat) : cut (sizes ps) i = (ps.take i).flatten.length := by
  unfold cut sizes
  rw [← List.map_take, List.length_flatten]

theorem flatten_take (ps : List (List α)) (i : Nat) :
    (ps.take i).flatten = ps.flatten.take (cut (sizes ps) i) := by
  have h : ps.flatten = (ps.take i).flatten ++ (ps.drop i).flatten := by
    rw [← List.flatten_append, List.take_append_drop]
  rw [h, cut_sizes, List.take_left]

theorem flatten_drop (ps : List (List α)) (i : Nat) :
    (ps.drop i).flatten = ps.flatten.drop (cut (sizes ps) i) := by
  have h : ps.flatten = (ps.take i).flatten ++ (ps.drop i).flatten := by
    rw [← List.flatten_append, List.take_append_drop]
  rw [h, cut_sizes, List.drop_left]

/-- **A range of pieces** is the range of the sequence between two cuts. -/
theorem flatten_range (ps : List (List α)) (i j : Nat) :
    ((ps.take j).drop i).flatten = (ps.flatten.take (cut (sizes ps) j)).drop (cut (sizes ps) i) := by
  by_cases h : i ≤ j
  · rw [flatten_drop, flatten_take, cut_sizes (ps.take j), List.take_take, Nat.min_eq_left h,
      ← cut_sizes]
  · -- both ranges are empty
    rw [List.drop_eq_nil_of_le (by rw [List.length_take]; omega), List.drop_eq_nil_of_le]
    · rfl
    · rw [List.length_take]
      have := cut_mono (sizes ps) (i := j) (j := i) (by omega)
      omega

/-! ## Ends -/

/-- The running sums of sizes: where the pieces end, for a sequence that starts at `base`. -/
def sums (base : Nat) : List Nat → List Nat
  | [] => []
  | n :: ns => (base + n) :: sums (base + n) ns

@[simp] theorem length_sums (base : Nat) (ns : List Nat) : (sums base ns).length = ns.length := by
  induction ns generalizing base with
  | nil => rfl
  | cons n ns ih => rw [sums, List.length_cons, List.length_cons, ih]

theorem getElem?_sums (base : Nat) {i : Nat} {ns : List Nat} (h : i < ns.length) :
    (sums base ns)[i]? = some (base + cut ns (i + 1)) := by
  induction ns generalizing base i with
  | nil => cases h
  | cons n ns ih =>
    rw [sums, cut_cons]
    cases i with
    | zero => rfl
    | succ i =>
      rw [List.getElem?_cons_succ, ih _ (by rw [List.length_cons] at h; omega)]
      exact congrArg some (by omega)

theorem bisectLeft_cons (v : Nat) (l : List Nat) (x : Nat) :
    bisectLeft (v :: l) x = if v < x then bisectLeft l x + 1 else 0 := by
  unfold bisectLeft
  rw [List.takeWhile_cons]
  by_cases h : v < x
  · simp [h]
  · simp [h]

theorem bisect_sums (base : Nat) {x : Nat} {ns : List Nat} (hne : ns ≠ []) (hx : x ≤ base + ns.sum) :
    bisectLeft (sums base ns) x < ns.length ∧
      x ≤ base + cut ns (bisectLeft (sums base ns) x + 1) ∧
      (bisectLeft (sums base ns) x = 0 ∨ base + cut ns (bisectLeft (sums base ns) x) < x) := by
  induction ns generalizing base with
  | nil => exact absurd rfl hne
  | cons n ns ih =>
    rw [List.sum_cons] at hx
    rw [sums, bisectLeft_cons]
    by_cases h : base + n < x
    · have hne' : ns ≠ [] := fun e => by
        rw [e, List.sum_nil] at hx
        omega
      obtain ⟨hlt, hle, hstart⟩ := ih (base + n) hne' (by omega)
      rw [if_pos h, cut_cons, cut_cons, List.length_cons]
      refine ⟨by omega, by omega, .inr ?_⟩
      rcases hstart with h₀ | hstart
      · rw [h₀, cut_zero]
        omega
      · omega
    · rw [if_neg h, cut_cons, cut_zero, List.length_cons]
      exact ⟨by omega, by omega, .inl rfl⟩

/-- Behind the last end. -/
theorem bisect_past (base : Nat) {x : Nat} {ns : List Nat} (hx : base + ns.sum < x) :
    bisectLeft (sums base ns) x = ns.length := by
  induction ns generalizing base with
  | nil => rfl
  | cons n ns ih =>
    rw [List.sum_cons] at hx
    rw [sums, bisectLeft_cons, if_pos (by omega), ih (base + n) (by omega), List.length_cons]

/-- The piece in which a position falls: the first that does not end before it. -/
def pieceAt (ns : List Nat) (x : Nat) : Nat := bisectLeft (sums 0 ns) x

section

variable {ns : List Nat} {x : Nat} (hne : ns ≠ []) (hx : x ≤ ns.sum)
include hne hx

theorem pieceAt_lt : pieceAt ns x < ns.length := (bisect_sums 0 hne (by omega)).1

theorem le_cut_pieceAt : x ≤ cut ns (pieceAt ns x + 1) := by
  have h := (bisect_sums 0 hne (x := x) (by omega)).2.1
  rwa [Nat.zero_add] at h

theorem cut_pieceAt_lt : pieceAt ns x = 0 ∨ cut ns (pieceAt ns x) < x := by
  have h := (bisect_sums 0 hne (x := x) (by omega)).2.2
  rwa [Nat.zero_add] at h

end

/-! ## Choosing elements by their positions -/

/-- The elements at the positions that `keep` allows; the first has position `i`. -/
def chosen (keep : Nat → Bool) : Nat → List α → List α
  | _, [] => []
  | i, x :: l => if keep i then x :: chosen keep (i + 1) l else chosen keep (i + 1) l

theorem chosen_congr {keep keep' : Nat → Bool} {i : Nat} {l : List α}
    (h : ∀ t, i ≤ t → keep t = keep' t) : chosen keep i l = chosen keep' i l := by
  induction l generalizing i with
  | nil => rfl
  | cons x l ih => rw [chosen, chosen, h i (Nat.le_refl i), ih fun t ht => h t (by omega)]

theorem map_chosen {β : Type} (f : α → β) (keep : Nat → Bool) (i : Nat) (l : List α) :
    (chosen keep i l).map f = chosen keep i (l.map f) := by
  induction l generalizing i with
  | nil => rfl
  | cons x l ih =>
    rw [List.map_cons, chosen, chosen, ← ih]
    split <;> rfl

theorem drop_eq_chosen (n i : Nat) (l : List α) :
    l.drop n = chosen (fun t => decide (i + n ≤ t)) i l := by
  induction l generalizing n i with
  | nil => exact List.drop_nil
  | cons x l ih =>
    rw [chosen]
    cases n with
    | zero =>
      rw [if_pos (decide_eq_true (by omega)), List.drop_zero]
      have h := ih 0 (i + 1)
      rw [List.drop_zero] at h
      refine congrArg _ (h.trans (chosen_congr fun t ht => decide_eq_decide.mpr ?_))
      omega
    | succ n =>
      rw [if_neg (by rw [decide_eq_true_eq]; omega), List.drop_succ_cons, ih n (i + 1)]
      exact chosen_congr fun t _ => decide_eq_decide.mpr (by omega)

/-- Every other element is taken out, the first one first, so many times. -/
def thin : Nat → List α → List α
  | 0, l => l
  | _ + 1, [] => []
  | _ + 1, [_] => []
  | n + 1, _ :: y :: l => y :: thin n l

theorem thin_nil (n : Nat) : thin n ([] : List α) = [] := by cases n <;> rfl

theorem thin_eq_chosen (n i : Nat) (l : List α) :
    thin n l = chosen (fun t => decide ¬ ((t - i) % 2 = 0 ∧ (t - i) / 2 < n)) i l := by
  induction n, l using thin.induct generalizing i with
  | case1 l =>
    have h := drop_eq_chosen 0 i l
    rw [List.drop_zero] at h
    rw [thin]
    refine h.trans (chosen_congr fun t ht => decide_eq_decide.mpr ?_)
    omega
  | case2 n => rfl
  | case3 n x =>
    rw [thin, chosen, if_neg (by rw [decide_eq_true_eq]; omega)]
    rfl
  | case4 n x y l ih =>
    rw [thin, chosen, if_neg (by rw [decide_eq_true_eq]; omega), chosen,
      if_pos (decide_eq_true (by omega)), ih (i + 2)]
    exact congrArg _ (chosen_congr fun t ht => decide_eq_decide.mpr (by omega))

/-- Empty pieces do not count. -/
theorem flatten_chosen_congr {keep keep' : Nat → Bool} {i : Nat} {ps : List (List α)}
    (h : ∀ t n, (sizes ps)[t]? = some n → 0 < n → keep (i + t) = keep' (i + t)) :
    (chosen keep i ps).flatten = (chosen keep' i ps).flatten := by
  induction ps generalizing i with
  | nil => rfl
  | cons p ps ih =>
    have hrest := ih (i := i + 1) fun t n ht hn => by
      have := h (t + 1) n ht hn
      rwa [show i + (t + 1) = i + 1 + t by omega] at this
    by_cases hp : p = []
    · rw [chosen, chosen, hp]
      split <;> split <;> simpa using hrest
    · rw [chosen, chosen, ← show keep i = keep' i from
        h 0 p.length rfl (List.length_pos_iff.mpr hp)]
      split
      · rw [List.flatten_cons, List.flatten_cons, hrest]
      · exact hrest

/-- Pieces of given sizes: the piece at position `b` repeats `x`, the others `y`. -/
def marked (x y : α) (b : Nat) : Nat → List Nat → List (List α)
  | _, [] => []
  | i, n :: ns => List.replicate n (if i = b then x else y) :: marked x y b (i + 1) ns

theorem sizes_marked (x y : α) (b i : Nat) (ns : List Nat) : sizes (marked x y b i ns) = ns := by
  induction ns generalizing i with
  | nil => rfl
  | cons n ns ih => exact congr (congrArg _ List.length_replicate) (ih (i + 1))

theorem drop_marked (x y : α) (b k i : Nat) (ns : List Nat) :
    (marked x y b i ns).drop k = marked x y b (i + k) (ns.drop k) := by
  induction k generalizing i ns with
  | zero => rfl
  | succ k ih =>
    cases ns with
    | nil => rfl
    | cons n ns =>
      rw [marked, List.drop_succ_cons, List.drop_succ_cons, ih, show i + 1 + k = i + (k + 1) by omega]

/-- The position of the first element that is not the filler. -/
theorem replicate_append_cons_inj {x y : α} (hxy : x ≠ y) {a b : Nat} {l l' : List α}
    (h : List.replicate a y ++ x :: l = List.replicate b y ++ x :: l') : a = b := by
  induction a generalizing b with
  | zero =>
    cases b with
    | zero => rfl
    | succ b => exact absurd (List.cons.inj h).1 hxy
  | succ a ih =>
    cases b with
    | zero => exact absurd (List.cons.inj h).1.symm hxy
    | succ b => exact congrArg _ (ih (List.cons.inj h).2)

/-- The marked elements that are chosen: those of the marked piece. -/
theorem count_chosen_marked [DecidableEq α] {x y : α} (hxy : x ≠ y) (keep : Nat → Bool)
    (b i : Nat) (ns : List Nat) :
    (chosen keep i (marked x y b i ns)).flatten.count x =
      if keep b ∧ i ≤ b then (ns[b - i]?).getD 0 else 0 := by
  induction ns generalizing i with
  | nil => simp [marked, chosen]
  | cons n ns ih =>
    have hhead : (if keep i then List.replicate n (if i = b then x else y) else []).count x =
        if keep i ∧ i = b then n else 0 := by
      by_cases hb : i = b
      · subst hb
        by_cases hk : keep i <;> simp [hk]
      · by_cases hk : keep i <;> simp [hk, hb, List.count_replicate, hxy.symm]
    have hsplit : (chosen keep i (marked x y b i (n :: ns))).flatten =
        (if keep i then List.replicate n (if i = b then x else y) else []) ++
          (chosen keep (i + 1) (marked x y b (i + 1) ns)).flatten := by
      rw [marked, chosen]
      split
      · rfl
      · rfl
    rw [hsplit, List.count_append, hhead, ih (i + 1)]
    by_cases hb : i = b
    · subst hb
      have hle : ¬ i + 1 ≤ i := by omega
      by_cases hk : keep i <;> simp [hk, hle]
    · by_cases hlt : i < b
      · have hget : (n :: ns)[b - i]? = ns[b - (i + 1)]? := by
          rw [show b - i = (b - (i + 1)) + 1 by omega, List.getElem?_cons_succ]
        have hle : i ≤ b := by omega
        have hle' : i + 1 ≤ b := by omega
        simp [hb, hget, hle, hle']
      · have hle : ¬ i ≤ b := by omega
        have hle' : ¬ i + 1 ≤ b := by omega
        simp [hb, hle, hle']

/-! ## Slices -/

theorem bound_natCast (n i : Nat) : bound n (i : Int) = min i n := by
  unfold bound
  rw [if_neg (by omega), Int.toNat_natCast]

theorem bound_neg {n i : Nat} (hpos : 0 < i) (h : i ≤ n) : bound n (-(i : Int)) = n - i := by
  unfold bound
  rw [if_pos (by omega)]
  omega

theorem take_min (l : List α) (i : Nat) : l.take (min i l.length) = l.take i := by
  rw [← List.take_take, List.take_length]

theorem drop_min (l : List α) (i : Nat) : l.drop (min i l.length) = l.drop i := by
  by_cases h : i ≤ l.length
  · rw [Nat.min_eq_left h]
  · rw [Nat.min_eq_right (by omega), List.drop_length, List.drop_eq_nil_of_le (by omega)]

theorem slice_natCast (l : List α) (a b : Nat) : slice l (a : Int) (b : Int) = (l.take b).drop a := by
  unfold slice
  rw [bound_natCast, bound_natCast, take_min]
  by_cases h : a ≤ l.length
  · rw [Nat.min_eq_left h]
  · rw [List.drop_eq_nil_of_le (by rw [List.length_take]; omega),
      List.drop_eq_nil_of_le (by rw [List.length_take]; omega)]

theorem sliceFrom_natCast (l : List α) (i : Nat) : sliceFrom l (i : Int) = l.drop i := by
  unfold sliceFrom
  rw [bound_natCast, drop_min]

/-- The last `i` elements. -/
theorem sliceFrom_neg (l : List α) {i : Nat} (hpos : 0 < i) (h : i ≤ l.length) :
    sliceFrom l (-(i : Int)) = l.drop (l.length - i) := by
  unfold sliceFrom
  rw [bound_neg hpos h]

/-- All but the last `i` elements. -/
theorem sliceTo_neg (l : List α) {i : Nat} (hpos : 0 < i) (h : i ≤ l.length) :
    sliceTo l (-(i : Int)) = l.take (l.length - i) := by
  unfold sliceTo
  rw [bound_neg hpos h]

/-- A range at or after the end is put at the end. -/
theorem spliceAt_natCast (l : List α) {a b : Nat} (h : a ≤ b) (r : List α) :
    spliceAt l (a : Int) (b : Int) r = l.take a ++ r ++ l.drop b := by
  unfold spliceAt
  rw [bound_natCast, bound_natCast, take_min, Nat.max_eq_right (by omega), drop_min]

end Pylib
