/-!
# Runs of a transition system

A `System` has states, labels (the calls and the choices the environment makes in them) and a
step relation.  `Run` is the list of labels of a finite run.  `System.meeting C` keeps the steps
that satisfy a condition `C` on the state before the step and its label: its runs are the runs
whose steps all meet `C`.

* `Run.invariant` — what holds at the start and is kept by each step holds at the end;
* `Reaches` — that some run leads from one state to another;
* `Run.expand` — a system whose steps are runs of another;
* `Run.of_meeting`, `Run.append`, `Run.split`;
* `run_after`, `run_meeting_after` — the runs of a total function.
-/

set_option autoImplicit false

namespace Pylib

/-- A labelled transition system. -/
structure System (σ ε : Type) where
  step : σ → ε → σ → Prop

namespace System

variable {σ ε : Type} {T : System σ ε}

/-- Finite runs. -/
inductive Run (T : System σ ε) : σ → List ε → σ → Prop
  | nil (s : σ) : Run T s [] s
  | cons {s s' s'' : σ} {e : ε} {es : List ε} :
      T.step s e s' → Run T s' es s'' → Run T s (e :: es) s''

/-- The steps that meet a condition on the state before and the label. -/
def meeting (T : System σ ε) (C : σ → ε → Prop) : System σ ε where
  step s e s' := T.step s e s' ∧ C s e

/-- The system of a total function: one outcome for each label. -/
def ofFun (f : ε → σ → σ) : System σ ε where
  step s e s' := s' = f e s

theorem Run.single {s s' : σ} {e : ε} (h : T.step s e s') : T.Run s [e] s' :=
  .cons h (.nil _)

theorem Run.append {s t u : σ} {es es' : List ε} (h : T.Run s es t) (h' : T.Run t es' u) :
    T.Run s (es ++ es') u := by
  induction h with
  | nil => exact h'
  | cons hs _ ih => exact .cons hs (ih h')

theorem Run.split {s s'' : σ} {es' : List ε} : ∀ {es : List ε}, T.Run s (es ++ es') s'' →
    ∃ s', T.Run s es s' ∧ T.Run s' es' s''
  | [], h => ⟨s, .nil s, h⟩
  | _ :: _, .cons hs h =>
    let ⟨s', h₁, h₂⟩ := h.split
    ⟨s', .cons hs h₁, h₂⟩

/-- **Invariant rule.** -/
theorem Run.invariant {I : σ → Prop} (hstep : ∀ s e s', I s → T.step s e s' → I s')
    {s s' : σ} {es : List ε} (h : T.Run s es s') (h₀ : I s) : I s' := by
  induction h with
  | nil => exact h₀
  | cons hs _ ih => exact ih (hstep _ _ _ h₀ hs)

theorem Run.of_meeting {C : σ → ε → Prop} {s s' : σ} {es : List ε}
    (h : (T.meeting C).Run s es s') : T.Run s es s' := by
  induction h with
  | nil => exact .nil _
  | cons hs _ ih => exact .cons hs.1 ih

/-- Some run leads from one state to the other. -/
def Reaches (T : System σ ε) (s s' : σ) : Prop := ∃ es, T.Run s es s'

theorem Reaches.refl (T : System σ ε) (s : σ) : T.Reaches s s := ⟨[], .nil s⟩

theorem Reaches.trans {s s' s'' : σ} (h : T.Reaches s s') (h' : T.Reaches s' s'') :
    T.Reaches s s'' := by
  obtain ⟨es, h⟩ := h
  obtain ⟨es', h'⟩ := h'
  exact ⟨es ++ es', h.append h'⟩

theorem Reaches.single {s s' : σ} {e : ε} (h : T.step s e s') : T.Reaches s s' := ⟨[e], .single h⟩

theorem Reaches.invariant {I : σ → Prop} (hstep : ∀ s e s', I s → T.step s e s' → I s')
    {s s' : σ} (h : T.Reaches s s') (h₀ : I s) : I s' := by
  obtain ⟨_, h⟩ := h
  exact h.invariant hstep h₀

/-- A system whose steps are runs of another: its runs are runs of the other. -/
theorem Run.expand {ε' : Type} {T' : System σ ε'}
    (hstep : ∀ s e s', T.step s e s' → ∃ es, T'.Run s es s') {s s' : σ} {es : List ε}
    (h : T.Run s es s') : ∃ es', T'.Run s es' s' := by
  induction h with
  | nil s => exact ⟨[], .nil s⟩
  | cons hs _ ih =>
    obtain ⟨es₁, h₁⟩ := hstep _ _ _ hs
    obtain ⟨es₂, h₂⟩ := ih
    exact ⟨es₁ ++ es₂, h₁.append h₂⟩

/-- The state a total function's run ends in. -/
def after (f : ε → σ → σ) : σ → List ε → σ
  | s, [] => s
  | s, e :: es => after f (f e s) es

/-- Every step of a total function's run meets a condition. -/
def meets (f : ε → σ → σ) (C : σ → ε → Bool) : σ → List ε → Bool
  | _, [] => true
  | s, e :: es => C s e && meets f C (f e s) es

theorem run_after (f : ε → σ → σ) : ∀ (es : List ε) (s : σ), (ofFun f).Run s es (after f s es)
  | [], s => .nil s
  | _ :: es, _ => .cons rfl (run_after f es _)

theorem run_meeting_after (f : ε → σ → σ) (C : σ → ε → Bool) : ∀ (es : List ε) (s : σ),
    meets f C s es = true → ((ofFun f).meeting fun s e => C s e = true).Run s es (after f s es)
  | [], s, _ => .nil s
  | e :: es, s, h => by
    rw [meets, Bool.and_eq_true] at h
    exact .cons ⟨rfl, h.1⟩ (run_meeting_after f C es (f e s) h.2)

end System

end Pylib
