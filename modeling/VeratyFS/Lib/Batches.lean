import VeratyFS.Lib.WriteBack

/-!
# Batches taken from a dictionary and stored later

Setters assign an entry in memory and then among the pending ones.  A commit takes the pending
entries away as a batch and stores it later; several batches can be on their way.  Batches are
numbered in the order in which they were taken, and `written k` is the number of the last one
that was stored with `k`.

* `Kept` — an entry that is not the stored one is pending, on its way, or about to become pending.
* `Kept.assign`, `Kept.enter`, `Kept.take`, `Kept.save` — what a step has to be like to keep it.
* `Kept.settled` — with no setter and no batch on its way, the pending entries over the stored
  ones are the memory.
-/

set_option autoImplicit false

namespace Pylib

structure Batches (κ α : Type) where
  memory : κ → Option α
  pending : κ → Option α
  stored : κ → Option α
  /-- An entry that was assigned in memory and not yet among the pending ones. -/
  assigned : κ → α → Prop
  /-- An entry of a batch on its way. -/
  taken : Nat → κ → α → Prop
  written : κ → Nat

namespace Batches

variable {κ α : Type}

/-- A setter is about to make the present entry pending. -/
def Setting (b : Batches κ α) (k : κ) : Prop := ∃ v, b.assigned k v ∧ b.memory k = some v

/-- The present entry is pending, or about to be. -/
def Waiting (b : Batches κ α) (k : κ) : Prop := (b.pending k).isSome ∨ b.Setting k

/-- A later batch has the key. -/
def Overtaken (b : Batches κ α) (n : Nat) (k : κ) : Prop :=
  (∃ m v, n < m ∧ b.taken m k v) ∨ n < b.written k

structure Kept (b : Batches κ α) : Prop where
  pending : ∀ k v, b.pending k = some v → b.memory k = some v ∨ b.Setting k
  taken : ∀ n k v, b.taken n k v → b.memory k = some v ∨ b.Waiting k ∨ b.Overtaken n k
  stored : ∀ k, b.stored k = b.memory k ∨ b.Waiting k ∨ ∃ n v, b.taken n k v

variable {b b' : Batches κ α} {k : κ} {v : α}

/-- `d[k] = v`. -/
theorem Kept.assign (h : b.Kept) (hk : b'.memory k = some v)
    (hm : ∀ x, x ≠ k → b'.memory x = b.memory x) (hp : b'.pending = b.pending)
    (hs : b'.stored = b.stored) (ht : b'.taken = b.taken) (hw : b'.written = b.written)
    (ha : ∀ x u, b'.assigned x u ↔ b.assigned x u ∨ x = k ∧ u = v) : b'.Kept := by
  have hset : b'.Setting k := ⟨v, (ha k v).mpr (.inr ⟨rfl, rfl⟩), hk⟩
  have hother : ∀ x, x ≠ k → b.Setting x → b'.Setting x := by
    rintro x hx ⟨u, hu, hmu⟩
    exact ⟨u, (ha x u).mpr (.inl hu), (hm x hx).trans hmu⟩
  have hwait : ∀ x, x ≠ k → b.Waiting x → b'.Waiting x := by
    intro x hx hwx
    rcases hwx with hpx | hsx
    · exact .inl (hp ▸ hpx)
    · exact .inr (hother x hx hsx)
  refine ⟨fun x u hx => ?_, fun n x u hx => ?_, fun x => ?_⟩
  · by_cases e : x = k
    · exact .inr (e ▸ hset)
    · rw [hm x e]
      exact (h.pending x u (hp ▸ hx)).imp_right (hother x e)
  · by_cases e : x = k
    · exact .inr (.inl (.inr (e ▸ hset)))
    · rw [hm x e]
      rcases h.taken n x u (ht ▸ hx) with hmx | hwx | hox
      · exact .inl hmx
      · exact .inr (.inl (hwait x e hwx))
      · refine .inr (.inr ?_)
        unfold Overtaken
        rw [ht, hw]
        exact hox
  · by_cases e : x = k
    · exact .inr (.inl (.inr (e ▸ hset)))
    · rw [hs, ht, hm x e]
      exact (h.stored x).imp_right (Or.imp_left (hwait x e))

/-- `pending[k] = v`, when `v` is still the entry in memory. -/
theorem Kept.enter (h : b.Kept) (hk : b.memory k = some v) (hpk : b'.pending k = some v)
    (hp : ∀ x, x ≠ k → b'.pending x = b.pending x) (hm : b'.memory = b.memory)
    (hs : b'.stored = b.stored) (ht : b'.taken = b.taken) (hw : b'.written = b.written)
    (ha : ∀ x u, b.assigned x u → b'.assigned x u ∨ x = k ∧ u = v) : b'.Kept := by
  have hother : ∀ x, x ≠ k → b.Setting x → b'.Setting x := by
    rintro x hx ⟨u, hu, hmu⟩
    rcases ha x u hu with hu | ⟨e, _⟩
    · exact ⟨u, hu, hm ▸ hmu⟩
    · exact absurd e hx
  have hwait : ∀ x, b.Waiting x → b'.Waiting x := by
    intro x hwx
    by_cases e : x = k
    · refine .inl ?_
      rw [e, hpk]
      rfl
    · rcases hwx with hpx | hsx
      · exact .inl ((hp x e).symm ▸ hpx)
      · exact .inr (hother x e hsx)
  refine ⟨fun x u hx => ?_, fun n x u hx => ?_, fun x => ?_⟩
  · by_cases e : x = k
    · rw [e, hpk] at hx
      rw [hm, e, hk]
      exact .inl hx
    · rw [hp x e] at hx
      rw [hm]
      exact (h.pending x u hx).imp_right (hother x e)
  · rw [hm]
    rcases h.taken n x u (ht ▸ hx) with hmx | hwx | hox
    · exact .inl hmx
    · exact .inr (.inl (hwait x hwx))
    · refine .inr (.inr ?_)
      unfold Overtaken
      rw [ht, hw]
      exact hox
  · rw [hs, ht, hm]
    exact (h.stored x).imp_right (Or.imp_left (hwait x))

/-- The pending entries become the batch `n`, later than all others. -/
theorem Kept.take {n : Nat} (h : b.Kept) (hp : ∀ x, b'.pending x = none)
    (hm : b'.memory = b.memory) (hs : b'.stored = b.stored) (hw : b'.written = b.written)
    (ha : b'.assigned = b.assigned) (hlast : ∀ m x u, b.taken m x u → m < n)
    (ht : ∀ m x u, b'.taken m x u ↔ b.taken m x u ∨ m = n ∧ b.pending x = some u) : b'.Kept := by
  have hset : ∀ x, b.Setting x → b'.Setting x := by
    rintro x ⟨u, hu, hmu⟩
    exact ⟨u, ha ▸ hu, hm ▸ hmu⟩
  refine ⟨fun x u hx => ?_, fun m x u hx => ?_, fun x => ?_⟩
  · rw [hp] at hx
    cases hx
  · rw [hm]
    rcases (ht m x u).mp hx with hx | ⟨_, hx⟩
    · rcases h.taken m x u hx with hmx | (hpx | hsx) | (⟨m', u', hlt, hx'⟩ | hwx)
      · exact .inl hmx
      · obtain ⟨u', hu'⟩ := Option.isSome_iff_exists.mp hpx
        exact .inr (.inr (.inl ⟨n, u', hlast m x u hx, (ht n x u').mpr (.inr ⟨rfl, hu'⟩)⟩))
      · exact .inr (.inl (.inr (hset x hsx)))
      · exact .inr (.inr (.inl ⟨m', u', hlt, (ht m' x u').mpr (.inl hx')⟩))
      · exact .inr (.inr (.inr (hw ▸ hwx)))
    · rcases h.pending x u hx with hmx | hsx
      · exact .inl hmx
      · exact .inr (.inl (.inr (hset x hsx)))
  · rw [hs, hm]
    rcases h.stored x with hmx | (hpx | hsx) | ⟨m, u, hx⟩
    · exact .inl hmx
    · obtain ⟨u, hu⟩ := Option.isSome_iff_exists.mp hpx
      exact .inr (.inr ⟨n, u, (ht n x u).mpr (.inr ⟨rfl, hu⟩)⟩)
    · exact .inr (.inl (.inr (hset x hsx)))
    · exact .inr (.inr ⟨m, u, (ht m x u).mpr (.inl hx)⟩)

/-- The batch `n` is stored, and no later one with one of its keys was. -/
theorem Kept.save {n : Nat} {batch : κ → Option α} (h : b.Kept)
    (hbatch : ∀ x u, batch x = some u → b.taken n x u)
    (hfirst : ∀ x, (batch x).isSome → b.written x ≤ n)
    (hs : ∀ x, b'.stored x = (batch x).orElse fun _ => b.stored x)
    (hw : ∀ x, b'.written x = if (batch x).isSome then n else b.written x)
    (hm : b'.memory = b.memory) (hp : b'.pending = b.pending) (ha : b'.assigned = b.assigned)
    (ht : ∀ m x u, b.taken m x u → b'.taken m x u ∨ m = n ∧ (batch x).isSome)
    (ht' : ∀ m x u, b'.taken m x u → b.taken m x u) : b'.Kept := by
  have hset : ∀ x, b.Setting x → b'.Setting x := by
    rintro x ⟨u, hu, hmu⟩
    exact ⟨u, ha ▸ hu, hm ▸ hmu⟩
  have hwait : ∀ x, b.Waiting x → b'.Waiting x := fun x hwx => hwx.imp (fun hpx => hp ▸ hpx) (hset x)
  have hle : ∀ x, b.written x ≤ b'.written x := by
    intro x
    rw [hw]
    split
    · rename_i hx
      exact hfirst x hx
    · exact Nat.le_refl _
  refine ⟨fun x u hx => ?_, fun m x u hx => ?_, fun x => ?_⟩
  · rw [hm]
    exact (h.pending x u (hp ▸ hx)).imp_right (hset x)
  · rw [hm]
    rcases h.taken m x u (ht' m x u hx) with hmx | hwx | (⟨m', u', hlt, hx'⟩ | hlt)
    · exact .inl hmx
    · exact .inr (.inl (hwait x hwx))
    · refine .inr (.inr ?_)
      rcases ht m' x u' hx' with hx' | ⟨rfl, hsome⟩
      · exact .inl ⟨m', u', hlt, hx'⟩
      · refine .inr ?_
        rw [hw, if_pos hsome]
        exact hlt
    · exact .inr (.inr (.inr (Nat.lt_of_lt_of_le hlt (hle x))))
  · rw [hs, hm]
    cases hx : batch x with
    | none =>
      rcases h.stored x with hmx | hwx | ⟨m, u, hxu⟩
      · exact .inl hmx
      · exact .inr (.inl (hwait x hwx))
      · rcases ht m x u hxu with hxu | ⟨_, hsome⟩
        · exact .inr (.inr ⟨m, u, hxu⟩)
        · rw [hx] at hsome
          cases hsome
    | some u =>
      rcases h.taken n x u (hbatch x u hx) with hmx | hwx | (⟨m, u', hlt, hxu⟩ | hlt)
      · exact .inl hmx.symm
      · exact .inr (.inl (hwait x hwx))
      · rcases ht m x u' hxu with hxu | ⟨rfl, _⟩
        · exact .inr (.inr ⟨m, u', hxu⟩)
        · exact absurd hlt (Nat.lt_irrefl _)
      · have hle := hfirst x (by rw [hx]; rfl)
        omega

/-- **Once nobody sets and no batch is on its way**, the pending entries over the stored ones are the
memory. -/
theorem Kept.settled (h : b.Kept) (ha : ∀ x u, ¬ b.assigned x u)
    (ht : ∀ n x u, ¬ b.taken n x u) : Overlay b.memory b.pending b.stored := by
  intro x
  have hset : ¬ b.Setting x := by
    rintro ⟨u, hu, _⟩
    exact ha x u hu
  cases hp : b.pending x with
  | some u =>
    rcases h.pending x u hp with hmx | hsx
    · exact hmx
    · exact absurd hsx hset
  | none =>
    rcases h.stored x with hmx | (hpx | hsx) | ⟨n, u, hx⟩
    · exact hmx.symm
    · rw [hp] at hpx
      cases hpx
    · exact absurd hsx hset
    · exact absurd hx (ht n x u)

end Batches

end Pylib
