import VeratyFS.Lib.Py

/-!
# Computations with observed states

A crash keeps what was stored at that moment, so what a computation stores is looked at on the way
and not only at its end.  `Observed σ ω` is a state with the views of it that were seen so far.

* `quiet m` runs `m` and sees nothing; `noting view m` sees the state after `m`.
* `Follows m' m` — `m'` does to the state what `m` does, and returns the same.
* `Always I Q` — the state satisfies `I`, and everything seen `Q`; `keeps_quiet` and `keeps_noting`
  carry it through a computation.
-/

set_option autoImplicit false

namespace Pylib

structure Observed (σ ω : Type) where
  state : σ
  seen : List ω

namespace Py

variable {ε σ τ ω α β : Type}

def quiet (m : Py ε σ α) : Py ε (Observed σ ω) α :=
  zoom Observed.state (fun s o => { o with state := s }) m

def noting (view : σ → ω) (m : Py ε σ α) : Py ε (Observed σ ω) α := fun o =>
  ((m o.state).1, ⟨(m o.state).2, o.seen ++ [view (m o.state).2]⟩)

/-- Run `m` on a part of an observed state. -/
def within (get : σ → τ) (put : τ → σ → σ) (m : Py ε (Observed τ ω) α) : Py ε (Observed σ ω) α :=
  zoom (fun o => ⟨get o.state, o.seen⟩) (fun p o => ⟨put p.state o.state, p.seen⟩) m

section

variable {m : Py ε σ α} {o : Observed σ ω} {r : Except ε α} {s : σ}

theorem quiet_run (h : m o.state = (r, s)) : quiet m o = (r, ⟨s, o.seen⟩) :=
  run_zoom h

theorem noting_run {view : σ → ω} (h : m o.state = (r, s)) :
    noting view m o = (r, ⟨s, o.seen ++ [view s]⟩) := by
  unfold noting
  rw [h]

end

/-! ## The computation that is observed -/

def Follows (m' : Py ε (Observed σ ω) α) (m : Py ε σ α) : Prop :=
  ∀ o, (m' o).1 = (m o.state).1 ∧ (m' o).2.state = (m o.state).2

theorem follows_quiet (m : Py ε σ α) : Follows (quiet m : Py ε (Observed σ ω) α) m :=
  fun _ => ⟨rfl, rfl⟩

theorem follows_noting (view : σ → ω) (m : Py ε σ α) : Follows (noting view m) m :=
  fun _ => ⟨rfl, rfl⟩

theorem follows_pure (a : α) : Follows (pure a : Py ε (Observed σ ω) α) (pure a) :=
  fun _ => ⟨rfl, rfl⟩

theorem follows_raise (e : ε) : Follows (raise e : Py ε (Observed σ ω) α) (raise e) :=
  fun _ => ⟨rfl, rfl⟩

section

variable {m' : Py ε (Observed σ ω) α} {m : Py ε σ α}

theorem follows_bind {f' : α → Py ε (Observed σ ω) β} {f : α → Py ε σ β} (hm : Follows m' m)
    (hf : ∀ a, Follows (f' a) (f a)) : Follows (m' >>= f') (m >>= f) := by
  intro o
  have h := hm o
  cases hr : m o.state with
  | mk r s =>
    cases hr' : m' o with
    | mk r' o' =>
      rw [hr, hr'] at h
      obtain ⟨rfl, rfl⟩ := h
      cases r' with
      | error e =>
        rw [run_bind_error hr, run_bind_error hr']
        exact ⟨rfl, rfl⟩
      | ok a =>
        rw [run_bind_ok hr, run_bind_ok hr']
        exact hf a o'

theorem follows_attempt {f' : ε → Py ε (Observed σ ω) α} {f : ε → Py ε σ α} (hm : Follows m' m)
    (hf : ∀ e, Follows (f' e) (f e)) : Follows (attempt m' f') (attempt m f) := by
  intro o
  have h := hm o
  cases hr : m o.state with
  | mk r s =>
    cases hr' : m' o with
    | mk r' o' =>
      rw [hr, hr'] at h
      obtain ⟨rfl, rfl⟩ := h
      cases r' with
      | error e =>
        rw [run_attempt_error hr, run_attempt_error hr']
        exact hf e o'
      | ok a =>
        rw [run_attempt_ok hr, run_attempt_ok hr']
        exact ⟨rfl, rfl⟩

theorem follows_forEach {f' : β → Py ε (Observed σ ω) Unit} {f : β → Py ε σ Unit} {l : List β}
    (hf : ∀ b, Follows (f' b) (f b)) : Follows (forEach f' l) (forEach f l) := by
  induction l with
  | nil => exact follows_pure ()
  | cons b l ih => exact follows_bind (hf b) fun _ => ih

theorem follows_within {get : τ → σ} {put : σ → τ → τ} (h : Follows m' m) :
    Follows (within get put m') (zoom get put m) := by
  intro o
  obtain ⟨hr, hs⟩ := h ⟨get o.state, o.seen⟩
  exact ⟨hr, congrArg (put · o.state) hs⟩

end

/-! ## What is seen -/

/-- The state satisfies `I`, and what was seen satisfies `Q`. -/
structure Always (I : σ → Prop) (Q : ω → Prop) (o : Observed σ ω) : Prop where
  state : I o.state
  seen : ∀ w ∈ o.seen, Q w

section

variable {I : σ → Prop} {Q : ω → Prop} {view : σ → ω} {m : Py ε σ α}

theorem always_quiet {o : Observed σ ω} (h : Always I Q o) (hm : I (m o.state).2) :
    Always I Q (quiet m o).2 := ⟨hm, h.seen⟩

theorem always_noting {o : Observed σ ω} (h : Always I Q o) (hm : I (m o.state).2)
    (hview : ∀ s, I s → Q (view s)) : Always I Q (noting view m o).2 := by
  refine ⟨hm, fun w hw => ?_⟩
  rcases List.mem_append.mp hw with hw | hw
  · exact h.seen w hw
  · rw [List.mem_singleton.mp hw]
    exact hview _ hm

theorem keeps_quiet (hm : Keeps (Stays I) m) : Keeps (Stays (Always I Q)) (quiet m) :=
  fun o h => always_quiet h (hm o.state h.state)

theorem keeps_noting (hm : Keeps (Stays I) m) (hview : ∀ s, I s → Q (view s)) :
    Keeps (Stays (Always I Q)) (noting view m) :=
  fun o h => always_noting h (hm o.state h.state) hview

end

end Py

end Pylib
