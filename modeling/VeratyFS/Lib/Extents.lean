import Mathlib.Data.List.Pairwise
import Mathlib.Data.List.Perm.Basic

/-!
# Extents

An allocator that hands out ranges of files: some from the free part behind a position that only
grows, others from a list of ranges that were given back.

* `Extent`, `Extent.Disjoint`, `Extent.Within` — ranges, and where they lie.
* `Space` — the position of each file, the free ranges, and the range that each owner uses.
* `Space.Sound` — all of them lie behind a header and before the positions, and no two meet.
* `Space.Step` — what an allocator may do: forget an owner, take a range back, let an owner use a
  range that is clear, move a position on, cut a free range.
* `Space.Sound.step` — it stays sound; `Space.Sound.clear_ahead`, `Space.Sound.cut_disjoint` — what is
  handed out meets no range in use.
-/

set_option autoImplicit false

namespace Pylib

/-- A range of bytes in a file. -/
structure Extent where
  file : Int
  start : Int
  length : Nat
  deriving DecidableEq, Repr

namespace Extent

variable {e e' f : Extent} {low : Int} {top top' : Int → Option Int}

def stop (e : Extent) : Int := e.start + e.length

def Disjoint (e e' : Extent) : Prop := e.file ≠ e'.file ∨ e.stop ≤ e'.start ∨ e'.stop ≤ e.start

instance (e e' : Extent) : Decidable (e.Disjoint e') := inferInstanceAs (Decidable (_ ∨ _ ∨ _))

/-- `e` is a part of `f`. -/
structure Part (e f : Extent) : Prop where
  file : e.file = f.file
  start : f.start ≤ e.start
  stop : e.stop ≤ f.stop

/-- The extent lies behind the header of its file and before the end. -/
def Within (low : Int) (top : Int → Option Int) (e : Extent) : Prop :=
  ∃ t, top e.file = some t ∧ low ≤ e.start ∧ e.stop ≤ t

theorem Disjoint.symm (h : e.Disjoint e') : e'.Disjoint e := by
  rcases h with h | h | h
  · exact .inl (Ne.symm h)
  · exact .inr (.inr h)
  · exact .inr (.inl h)

theorem Part.disjoint (h : e.Part f) (hd : f.Disjoint e') : e.Disjoint e' := by
  obtain ⟨hfile, hstart, hstop⟩ := h
  rcases hd with hd | hd | hd
  · exact .inl (hfile ▸ hd)
  · exact .inr (.inl (Int.le_trans hstop hd))
  · exact .inr (.inr (Int.le_trans hd hstart))

theorem Part.within (h : e.Part f) (hw : f.Within low top) : e.Within low top := by
  obtain ⟨t, ht, hlow, hstop⟩ := hw
  exact ⟨t, h.file ▸ ht, Int.le_trans hlow h.start, Int.le_trans h.stop hstop⟩

theorem Within.grow (h : e.Within low top)
    (htop : ∀ c t, top c = some t → ∃ t', top' c = some t' ∧ t ≤ t') : e.Within low top' := by
  obtain ⟨t, ht, hlow, hstop⟩ := h
  obtain ⟨t', ht', hle⟩ := htop _ _ ht
  exact ⟨t', ht', hlow, Int.le_trans hstop hle⟩

/-- What begins at the position of a file lies behind everything in it. -/
theorem Within.disjoint {c t : Int} {n : Nat} (h : e.Within low top) (hc : top c = some t) :
    (⟨c, t, n⟩ : Extent).Disjoint e := by
  by_cases hfile : c = e.file
  · obtain ⟨t', ht', _, hstop⟩ := h
    rw [← hfile, hc] at ht'
    cases ht'
    exact .inr (.inr hstop)
  · exact .inl hfile

end Extent

/-! ## Spaces -/

/-- The state of an allocator: where the free part of each file begins, which ranges were given
back, and which range each owner uses. -/
structure Space (κ : Type) where
  top : Int → Option Int
  free : List Extent
  used : κ → Option Extent

namespace Space

variable {κ : Type} {s s' : Space κ} {low : Int} {e f : Extent} {k : κ}

structure Sound (low : Int) (s : Space κ) : Prop where
  free_within : ∀ e ∈ s.free, e.Within low s.top
  used_within : ∀ k e, s.used k = some e → e.Within low s.top
  free_disjoint : s.free.Pairwise Extent.Disjoint
  used_free : ∀ k e, s.used k = some e → ∀ e' ∈ s.free, e.Disjoint e'
  used_disjoint : ∀ k k' e e', k ≠ k' → s.used k = some e → s.used k' = some e' → e.Disjoint e'

/-- The extent lies in a file, free of everything. -/
structure Clear (low : Int) (s : Space κ) (e : Extent) : Prop where
  within : e.Within low s.top
  free : ∀ e' ∈ s.free, e.Disjoint e'
  used : ∀ k e', s.used k = some e' → e.Disjoint e'

/-- Every owner uses what it used before, or nothing, or else it is `k` with the extent `e`. -/
def Gives (k : κ) (e : Extent) (s s' : Space κ) : Prop :=
  ∀ k' e', s'.used k' = some e' → k' = k ∧ e' = e ∨ s.used k' = some e'

inductive Step (low : Int) (s s' : Space κ) : Prop
  | forget (top : s'.top = s.top) (free : s'.free.Perm s.free)
      (used : ∀ k e, s'.used k = some e → s.used k = some e)
  | takeBack (e : Extent) (clear : s.Clear low e) (top : s'.top = s.top)
      (free : s'.free.Perm (e :: s.free)) (used : ∀ k e, s'.used k = some e → s.used k = some e)
  | hold (k : κ) (e : Extent) (clear : s.Clear low e) (top : s'.top = s.top)
      (free : s'.free = s.free) (used : s.Gives k e s')
  | advance (k : κ) (c t : Int) (n : Nat) (position : s.top c = some t) (behind : low ≤ t)
      (top : ∀ c', s'.top c' = if c = c' then some (t + n) else s.top c') (free : s'.free = s.free)
      (used : s.Gives k ⟨c, t, n⟩ s')
  | cut (k : κ) (f e : Extent) (part : e.Part f) (top : s'.top = s.top)
      (free : s.free.Perm (f :: s'.free)) (used : s.Gives k e s')

theorem Sound.clear_ahead (h : s.Sound low) {c t : Int} {n : Nat} (hc : s.top c = some t) :
    (∀ e ∈ s.free, (⟨c, t, n⟩ : Extent).Disjoint e) ∧
      ∀ k e, s.used k = some e → (⟨c, t, n⟩ : Extent).Disjoint e :=
  ⟨fun e he => (h.free_within e he).disjoint hc, fun k e hk => (h.used_within k e hk).disjoint hc⟩

/-- A part of a free extent meets nothing in use. -/
theorem Sound.cut_disjoint (h : s.Sound low) (hf : f ∈ s.free) (hpart : e.Part f) {e' : Extent}
    (hk : s.used k = some e') : e.Disjoint e' :=
  hpart.disjoint (h.used_free k e' hk f hf).symm

/-- An owner gets an extent that is clear of all others. -/
theorem Sound.gives (h : s.Sound low) (hwithin : ∀ e' : Extent, e'.Within low s.top → e'.Within low s'.top)
    (hfree : ∀ e' ∈ s'.free, e' ∈ s.free) (hpairwise : s'.free.Pairwise Extent.Disjoint)
    (he : e.Within low s'.top) (hefree : ∀ e' ∈ s'.free, e.Disjoint e')
    (heused : ∀ k e', s.used k = some e' → e.Disjoint e') (hused : s.Gives k e s') : s'.Sound low := by
  refine ⟨fun e' he' => hwithin e' (h.free_within e' (hfree e' he')), fun k' e' hk' => ?_, hpairwise,
    fun k' e' hk' g hg => ?_, fun k₁ k₂ e₁ e₂ hne h₁ h₂ => ?_⟩
  · rcases hused k' e' hk' with ⟨_, rfl⟩ | hold
    · exact he
    · exact hwithin e' (h.used_within k' e' hold)
  · rcases hused k' e' hk' with ⟨_, rfl⟩ | hold
    · exact hefree g hg
    · exact h.used_free k' e' hold g (hfree g hg)
  · rcases hused k₁ e₁ h₁ with ⟨rfl, rfl⟩ | hold₁ <;> rcases hused k₂ e₂ h₂ with ⟨rfl, rfl⟩ | hold₂
    · exact absurd rfl hne
    · exact heused k₂ e₂ hold₂
    · exact (heused k₁ e₁ hold₁).symm
    · exact h.used_disjoint k₁ k₂ e₁ e₂ hne hold₁ hold₂

/-- **A step keeps the space sound.** -/
theorem Sound.step (h : s.Sound low) (hstep : Step low s s') : s'.Sound low := by
  cases hstep with
  | forget top free used =>
    refine ⟨fun e he => ?_, fun k e hk => ?_, ?_, fun k e hk e' he' => ?_, fun k k' e e' hne hk hk' => ?_⟩
    · rw [top]
      exact h.free_within e (free.mem_iff.mp he)
    · rw [top]
      exact h.used_within k e (used k e hk)
    · exact (free.pairwise_iff fun h => h.symm).mpr h.free_disjoint
    · exact h.used_free k e (used k e hk) e' (free.mem_iff.mp he')
    · exact h.used_disjoint k k' e e' hne (used k e hk) (used k' e' hk')
  | takeBack e clear top free used =>
    have hmem : ∀ e' ∈ s'.free, e' = e ∨ e' ∈ s.free := fun e' he' => List.mem_cons.mp (free.mem_iff.mp he')
    refine ⟨fun e' he' => ?_, fun k e' hk => ?_, ?_, fun k e' hk g hg => ?_,
      fun k k' e₁ e₂ hne hk hk' => ?_⟩
    · rw [top]
      rcases hmem e' he' with rfl | hold
      · exact clear.within
      · exact h.free_within e' hold
    · rw [top]
      exact h.used_within k e' (used k e' hk)
    · refine (free.pairwise_iff fun h => h.symm).mpr ?_
      exact List.pairwise_cons.mpr ⟨clear.free, h.free_disjoint⟩
    · rcases hmem g hg with rfl | hold
      · exact (clear.used k e' (used k e' hk)).symm
      · exact h.used_free k e' (used k e' hk) g hold
    · exact h.used_disjoint k k' e₁ e₂ hne (used k e₁ hk) (used k' e₂ hk')
  | hold k e clear top free used =>
    have hwithin : ∀ e' : Extent, e'.Within low s.top → e'.Within low s'.top := fun _ he' => top ▸ he'
    refine h.gives hwithin (fun e' he' => free ▸ he') (free ▸ h.free_disjoint)
      (hwithin e clear.within) ?_ clear.used used
    rw [free]
    exact clear.free
  | advance k c t n position behind top free used =>
    obtain ⟨hfree, hused⟩ := h.clear_ahead (n := n) position
    have hgrow : ∀ c' t', s.top c' = some t' → ∃ t'', s'.top c' = some t'' ∧ t' ≤ t'' := by
      intro c' t' ht'
      rw [top c']
      split
      · rename_i hc
        rw [← hc, position] at ht'
        cases ht'
        exact ⟨t + n, rfl, by omega⟩
      · exact ⟨t', ht', Int.le_refl _⟩
    refine h.gives (fun e' he' => he'.grow hgrow) (fun e' he' => free ▸ he') (free ▸ h.free_disjoint)
      ⟨t + n, ?_, behind, Int.le_refl _⟩ ?_ hused used
    · rw [top, if_pos rfl]
    · rw [free]
      exact hfree
  | cut k f e part top free used =>
    have hf : f ∈ s.free := free.mem_iff.mpr List.mem_cons_self
    have hpairwise := List.pairwise_cons.mp ((free.pairwise_iff fun h => h.symm).mp h.free_disjoint)
    have hwithin : ∀ e' : Extent, e'.Within low s.top → e'.Within low s'.top := fun _ he' => top ▸ he'
    refine h.gives hwithin (fun e' he' => free.mem_iff.mpr (List.mem_cons_of_mem _ he')) hpairwise.2
      (hwithin e (part.within (h.free_within f hf))) (fun e' he' => part.disjoint (hpairwise.1 e' he'))
      (fun k e' hk => h.cut_disjoint hf part hk) used

end Space

end Pylib
