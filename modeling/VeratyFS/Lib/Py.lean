/-!
# Computations with state and exceptions

`Py ε σ α` is a Python computation over a mutable state `σ`: it returns an `α` or raises an `ε`,
and what it wrote before raising stays written.  `m.wp Q s` says that `m`, run from `s`, ends
with a result and a state that satisfy `Q`; the `wp_*` rules compute it through a program, and
`wp_forEach` is the loop rule.  `Keeps R m` relates the states before and after one run, `Agree R m m'`
the outcomes of two runs from related states.
-/

set_option autoImplicit false

namespace Pylib

def Py (ε σ α : Type) : Type := σ → Except ε α × σ

namespace Py

variable {ε σ τ α β : Type}

def ret (a : α) : Py ε σ α := fun s => (.ok a, s)

def andThen (m : Py ε σ α) (f : α → Py ε σ β) : Py ε σ β := fun s =>
  match m s with
  | (.ok a, s') => f a s'
  | (.error e, s') => (.error e, s')

instance : Monad (Py ε σ) where
  pure := ret
  bind := andThen

def raise (e : ε) : Py ε σ α := fun s => (.error e, s)

def read : Py ε σ σ := fun s => (.ok s, s)

def modify (f : σ → σ) : Py ε σ Unit := fun s => (.ok (), f s)

/-- `try: m except: handler`. -/
def attempt (m : Py ε σ α) (handler : ε → Py ε σ α) : Py ε σ α := fun s =>
  match m s with
  | (.ok a, s') => (.ok a, s')
  | (.error e, s') => handler e s'

/-- The value, or the exception that its absence raises. -/
def ofOption (e : ε) : Option α → Py ε σ α
  | some a => ret a
  | none => raise e

/-- `try: m finally: fin`. -/
def ensuring (m : Py ε σ α) (fin : σ → σ) : Py ε σ α := fun s => ((m s).1, fin (m s).2)

/-- Run `m` on a part of the state. -/
def zoom (get : σ → τ) (put : τ → σ → σ) (m : Py ε τ α) : Py ε σ α := fun s =>
  ((m (get s)).1, put (m (get s)).2 s)

/-- `for b in l: f(b)`. -/
def forEach (f : β → Py ε σ Unit) : List β → Py ε σ Unit
  | [] => ret ()
  | b :: l => andThen (f b) fun _ => forEach f l

/-! ## Runs -/

theorem run_bind_ok {m : Py ε σ α} {f : α → Py ε σ β} {s s' : σ} {a : α} (h : m s = (.ok a, s')) :
    (m >>= f) s = f a s' := by
  change andThen m f s = _
  unfold andThen
  rw [h]

theorem run_bind_error {m : Py ε σ α} {f : α → Py ε σ β} {s s' : σ} {e : ε}
    (h : m s = (.error e, s')) : (m >>= f) s = (.error e, s') := by
  change andThen m f s = _
  unfold andThen
  rw [h]

theorem run_read (s : σ) : (read : Py ε σ σ) s = (.ok s, s) := rfl

theorem run_modify (f : σ → σ) (s : σ) : (modify f : Py ε σ Unit) s = (.ok (), f s) := rfl

theorem run_attempt_ok {m : Py ε σ α} {f : ε → Py ε σ α} {s t : σ} {a : α}
    (h : m s = (.ok a, t)) : attempt m f s = (.ok a, t) := by
  unfold attempt
  rw [h]

theorem run_attempt_error {m : Py ε σ α} {f : ε → Py ε σ α} {s t : σ} {e : ε}
    (h : m s = (.error e, t)) : attempt m f s = f e t := by
  unfold attempt
  rw [h]

theorem run_zoom {get : σ → τ} {put : τ → σ → σ} {m : Py ε τ α} {s : σ} {r : Except ε α} {t : τ}
    (h : m (get s) = (r, t)) : zoom get put m s = (r, put t s) := by
  unfold zoom
  rw [h]

/-- `try: m except: pass`. -/
theorem attempt_pass (m : Py ε σ Unit) (s : σ) :
    attempt m (fun _ => return ()) s = (.ok (), (m s).2) := by
  unfold attempt
  split <;> rename_i h <;> rw [h]
  rfl

/-! ## Postconditions -/

def wp (m : Py ε σ α) (Q : Except ε α → σ → Prop) (s : σ) : Prop := Q (m s).1 (m s).2

variable {m : Py ε σ α} {Q R : Except ε α → σ → Prop} {s : σ}

/-- A postcondition for a normal return and one for a raise. -/
def post (Q : α → σ → Prop) (E : ε → σ → Prop) : Except ε α → σ → Prop
  | .ok a => Q a
  | .error e => E e

@[simp] theorem post_ok (Q : α → σ → Prop) (E : ε → σ → Prop) (a : α) :
    post Q E (.ok a) = Q a := rfl

@[simp] theorem post_error (Q : α → σ → Prop) (E : ε → σ → Prop) (e : ε) :
    post Q E (.error e) = E e := rfl

theorem wp_mono (h : m.wp Q s) (hQ : ∀ r s', Q r s' → R r s') : m.wp R s := hQ _ _ h

/-- A postcondition of a run whose outcome is known. -/
theorem wp_of_run {r : Except ε α} {s' : σ} (h : m s = (r, s')) : m.wp Q s ↔ Q r s' := by
  unfold wp
  rw [h]

@[simp] theorem wp_ret (a : α) : (ret a : Py ε σ α).wp Q s ↔ Q (.ok a) s := Iff.rfl

@[simp] theorem wp_pure (a : α) : (pure a : Py ε σ α).wp Q s ↔ Q (.ok a) s := Iff.rfl

@[simp] theorem wp_raise (e : ε) : (raise e : Py ε σ α).wp Q s ↔ Q (.error e) s := Iff.rfl

@[simp] theorem wp_read {Q : Except ε σ → σ → Prop} : (read : Py ε σ σ).wp Q s ↔ Q (.ok s) s :=
  Iff.rfl

@[simp] theorem wp_modify (f : σ → σ) {Q : Except ε Unit → σ → Prop} :
    (modify f : Py ε σ Unit).wp Q s ↔ Q (.ok ()) (f s) := Iff.rfl

theorem wp_andThen (f : α → Py ε σ β) {Q : Except ε β → σ → Prop} :
    (andThen m f).wp Q s ↔ m.wp (post (fun a => (f a).wp Q) (fun e => Q (.error e))) s := by
  unfold wp andThen post
  split <;> rename_i h <;> simp only [h]

theorem wp_bind (f : α → Py ε σ β) {Q : Except ε β → σ → Prop} :
    (m >>= f).wp Q s ↔ m.wp (post (fun a => (f a).wp Q) (fun e => Q (.error e))) s :=
  wp_andThen f

theorem wp_attempt (handler : ε → Py ε σ α) :
    (attempt m handler).wp Q s ↔
      m.wp (post (fun a => Q (.ok a)) (fun e => (handler e).wp Q)) s := by
  unfold wp attempt post
  split <;> rename_i h <;> simp only [h]

@[simp] theorem wp_ofOption_some (e : ε) (a : α) :
    (ofOption e (some a) : Py ε σ α).wp Q s ↔ Q (.ok a) s := Iff.rfl

@[simp] theorem wp_ofOption_none (e : ε) :
    (ofOption e none : Py ε σ α).wp Q s ↔ Q (.error e) s := Iff.rfl

@[simp] theorem wp_ensuring (fin : σ → σ) :
    (ensuring m fin).wp Q s ↔ m.wp (fun r s' => Q r (fin s')) s := Iff.rfl

@[simp] theorem wp_zoom {get : σ → τ} {put : τ → σ → σ} {m : Py ε τ α} :
    (zoom get put m).wp Q s ↔ m.wp (fun r t => Q r (put t s)) (get s) := Iff.rfl

/-! ## Relations that every run keeps -/

/-- Whether `m` returns or raises, its end is `R`-related to its start. -/
def Keeps (R : σ → σ → Prop) (m : Py ε σ α) : Prop := ∀ s, R s (m s).2

/-- A relation for `Keeps`: reflexive and transitive. -/
class Frame (R : σ → σ → Prop) : Prop where
  refl : ∀ s, R s s
  trans : ∀ {s s' s''}, R s s' → R s' s'' → R s s''

instance : Frame (@Eq σ) := ⟨fun _ => rfl, Eq.trans⟩

/-- A relation of a part of the state. -/
instance {R : τ → τ → Prop} [hR : Frame R] (f : σ → τ) : Frame (InvImage R f) :=
  ⟨fun s => hR.refl (f s), fun h h' => hR.trans h h'⟩

section

variable {R : σ → σ → Prop} [hR : Frame R]

theorem keeps_ret (a : α) : Keeps R (ret a : Py ε σ α) := hR.refl

theorem keeps_pure (a : α) : Keeps R (pure a : Py ε σ α) := hR.refl

theorem keeps_raise (e : ε) : Keeps R (raise e : Py ε σ α) := hR.refl

theorem keeps_read : Keeps R (read : Py ε σ σ) := hR.refl

theorem keeps_ofOption (e : ε) (o : Option α) : Keeps R (ofOption e o : Py ε σ α) := by
  cases o <;> exact hR.refl

theorem keeps_bind {f : α → Py ε σ β} (hm : Keeps R m) (hf : ∀ a, Keeps R (f a)) :
    Keeps R (m >>= f) := by
  intro s
  have h := hm s
  change R s (andThen m f s).2
  unfold andThen
  split <;> rename_i h' <;> rw [h'] at h
  · exact hR.trans h (hf _ _)
  · exact h

theorem keeps_attempt {handler : ε → Py ε σ α} (hm : Keeps R m) (hh : ∀ e, Keeps R (handler e)) :
    Keeps R (attempt m handler) := by
  intro s
  have h := hm s
  unfold attempt
  split <;> rename_i h' <;> rw [h'] at h
  · exact h
  · exact hR.trans h (hh _ _)

theorem keeps_forEach {f : β → Py ε σ Unit} {l : List β} (hf : ∀ b, Keeps R (f b)) :
    Keeps R (forEach f l) := by
  induction l with
  | nil => exact hR.refl
  | cons b l ih => exact keeps_bind (hf b) fun _ => ih

theorem keeps_ensuring {fin : σ → σ} (hm : Keeps R m) (hf : ∀ s, R s (fin s)) :
    Keeps R (ensuring m fin) := fun s => hR.trans (hm s) (hf _)

end

theorem keeps_modify {R : σ → σ → Prop} {f : σ → σ} (h : ∀ s, R s (f s)) :
    Keeps R (modify f : Py ε σ Unit) := h

theorem keeps_zoom {R : σ → σ → Prop} {S : τ → τ → Prop} {get : σ → τ} {put : τ → σ → σ}
    {m : Py ε τ α} (hm : Keeps S m) (h : ∀ s t, S (get s) t → R s (put t s)) :
    Keeps R (zoom get put m) := fun s => h s _ (hm _)

/-! ## What stays true -/

/-- What satisfies `I` before satisfies it after. -/
def Stays (I : σ → Prop) (s s' : σ) : Prop := I s → I s'

instance (I : σ → Prop) : Frame (Stays I) := ⟨fun _ => id, fun h h' hs => h' (h hs)⟩

section

variable {I : σ → Prop} {m : Py ε σ α} {s : σ}

/-- The first computation ends well, and the rest keeps `I`. -/
theorem stays_bind {f : α → Py ε σ β} (hm : I (m s).2) (hf : ∀ a, Keeps (Stays I) (f a)) :
    I ((m >>= f) s).2 := by
  cases hr : m s with
  | mk r t =>
    rw [hr] at hm
    cases r with
    | error e =>
      rw [run_bind_error hr]
      exact hm
    | ok a =>
      rw [run_bind_ok hr]
      exact hf a t hm

theorem stays_attempt {handler : ε → Py ε σ α} (hm : I (m s).2)
    (hh : ∀ e, Keeps (Stays I) (handler e)) : I (attempt m handler s).2 := by
  cases hr : m s with
  | mk r t =>
    rw [hr] at hm
    cases r with
    | error e =>
      rw [run_attempt_error hr]
      exact hh e t hm
    | ok a =>
      rw [run_attempt_ok hr]
      exact hm

end

/-! ## Two runs -/

/-- From `R`-related states, the same result and `R`-related states. -/
def Agree (R : σ → σ → Prop) (m m' : Py ε σ α) : Prop :=
  ∀ s s', R s s' → (m' s').1 = (m s).1 ∧ R (m s).2 (m' s').2

section

variable {R : σ → σ → Prop} {m m' : Py ε σ α}

theorem agree_pure (a : α) : Agree R (pure a : Py ε σ α) (pure a) := fun _ _ h => ⟨rfl, h⟩

theorem agree_ofOption (e : ε) (o : Option α) : Agree R (ofOption e o : Py ε σ α) (ofOption e o) := by
  cases o <;> exact fun _ _ h => ⟨rfl, h⟩

theorem agree_bind {f f' : α → Py ε σ β} (hm : Agree R m m') (hf : ∀ a, Agree R (f a) (f' a)) :
    Agree R (m >>= f) (m' >>= f') := by
  intro s s' hs
  have h := hm s s' hs
  cases hr : m s with
  | mk r t =>
    cases hr' : m' s' with
    | mk r' t' =>
      rw [hr, hr'] at h
      obtain ⟨rfl, ht⟩ := h
      cases r' with
      | error e =>
        rw [run_bind_error hr, run_bind_error hr']
        exact ⟨rfl, ht⟩
      | ok a =>
        rw [run_bind_ok hr, run_bind_ok hr']
        exact hf a t t' ht

end

/-! ## Loops -/

/-- **Loop rule**: an invariant of the items still to come and the state. -/
theorem wp_forEach {f : β → Py ε σ Unit} {I : List β → σ → Prop} {E : ε → σ → Prop}
    (hstep : ∀ b l s, I (b :: l) s → (f b).wp (post (fun _ => I l) E) s) :
    ∀ (l : List β) (s : σ), I l s → (forEach f l).wp (post (fun _ => I []) E) s
  | [], _, h => h
  | b :: l, s, h => by
    rw [forEach, wp_andThen]
    refine wp_mono (hstep b l s h) fun r s' hr => ?_
    cases r with
    | ok _ => exact wp_forEach hstep l s' hr
    | error e => exact hr

/-- An invariant of the state that every item keeps, whether it returns or raises. -/
theorem wp_forEach_inv {f : β → Py ε σ Unit} {I : σ → Prop} {l : List β}
    (hstep : ∀ b ∈ l, ∀ s, I s → (f b).wp (fun _ => I) s) (h : I s) :
    (forEach f l).wp (fun _ => I) s := by
  induction l generalizing s with
  | nil => exact h
  | cons b l ih =>
    rw [forEach, wp_andThen]
    refine wp_mono (hstep b List.mem_cons_self s h) fun r s' hr => ?_
    cases r with
    | ok _ => exact ih (fun b' hb' => hstep b' (List.mem_cons_of_mem _ hb')) hr
    | error e => exact hr

end Py

end Pylib
