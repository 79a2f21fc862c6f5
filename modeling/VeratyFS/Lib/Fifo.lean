import VeratyFS.Lib.Runs

/-!
# First in, first out

A queue seen from outside: what was put in, what was taken out, and when a taker was told that there
is nothing.  `fifo` says which histories a queue has, with its contents as the states.

* `puts`, `takes` — the values of a history that went in and came out.
* `fifo_conserved` — what went in is what came out, followed by what is held.
* `fifo_unique` — the history determines the contents.
-/

set_option autoImplicit false

namespace Pylib

inductive QueueEvent (α : Type) where
  | put (v : α)
  | taken (v : α)
  | empty
  deriving DecidableEq, Repr

variable {α : Type} {q q' : List α} {es : List (QueueEvent α)}

inductive FifoStep : List α → QueueEvent α → List α → Prop
  | put (q : List α) (v : α) : FifoStep q (.put v) (q ++ [v])
  | taken (v : α) (q : List α) : FifoStep (v :: q) (.taken v) q
  | empty : FifoStep [] .empty []

def fifo (α : Type) : System (List α) (QueueEvent α) := ⟨FifoStep⟩

def puts {α : Type} : List (QueueEvent α) → List α
  | [] => []
  | .put v :: es => v :: puts es
  | .taken _ :: es => puts es
  | .empty :: es => puts es

def takes {α : Type} : List (QueueEvent α) → List α
  | [] => []
  | .put _ :: es => takes es
  | .taken v :: es => v :: takes es
  | .empty :: es => takes es

@[simp] theorem puts_append (es es' : List (QueueEvent α)) : puts (es ++ es') = puts es ++ puts es' := by
  induction es with
  | nil => rfl
  | cons e es ih => cases e <;> simp [puts, ih]

theorem fifo_conserved (h : (fifo α).Run q es q') : q ++ puts es = takes es ++ q' := by
  induction h with
  | nil q => simp [puts, takes]
  | cons hs _ ih =>
    cases hs with
    | put q v =>
      rw [puts, takes, ← ih, List.append_assoc, List.singleton_append]
    | taken v q => rw [puts, takes, List.cons_append, List.cons_append, ih]
    | empty => exact ih

/-- What came out is a prefix of what went in. -/
theorem takes_prefix (h : (fifo α).Run [] es q) : takes es <+: puts es :=
  ⟨q, (fifo_conserved h).symm⟩

theorem FifoStep.unique {e : QueueEvent α} {q₁ q₂ : List α} (h₁ : FifoStep q e q₁)
    (h₂ : FifoStep q e q₂) : q₁ = q₂ := by
  cases h₁ <;> cases h₂ <;> rfl

theorem fifo_unique {q₁ q₂ : List α} (h₁ : (fifo α).Run q es q₁) (h₂ : (fifo α).Run q es q₂) :
    q₁ = q₂ := by
  induction h₁ with
  | nil q =>
    cases h₂
    rfl
  | cons hs _ ih =>
    cases h₂ with
    | cons hs₂ hrest =>
      cases FifoStep.unique hs hs₂
      exact ih hrest

end Pylib
