import Mathlib.Data.List.Perm.Basic
import Mathlib.Data.List.Nodup

/-!
# A producer handing keys over to consumers

The producer caches the data of a new key, queues the key, enters it in an index, and returns it.
A consumer takes a key from the queue, stores its data, drops it from the cache, and enters it in
the index itself.  A key is *located* when the index leads to its data.

The producer's entry and the consumers' can come in either order, so two steps have a condition:
an entry must not lead away from the data (`enter`, `rearrange`), and a key that is neither cached
nor located must not be a returned one (`uncache`, `handOver`).

* `Handoff.Step` — what one of them can do;
* `Handoff.Sound` — what each stage of a key says about the cache and the index;
* `Sound.step` — every step keeps it;
* `Sound.cached_or_located`, `Sound.located` — what it says about a returned key.
-/

set_option autoImplicit false

namespace Pylib

/-- What the producer is doing: the next thing it does with its new key. -/
inductive Producer (κ : Type) where
  | other
  | caching (k : κ)
  | queueing (k : κ)
  | entering (k : κ)

structure Handoff (κ : Type) where
  /-- Queued, or taken by a consumer that has not dropped it from the cache. -/
  waiting : List κ
  /-- Dropped from the cache by a consumer that has not entered it. -/
  installing : List κ
  known : κ → Prop
  located : κ → Prop
  cached : κ → Prop
  producer : Producer κ
  /-- The keys the producer returns next. -/
  listed : List κ
  returned : List κ

namespace Handoff

variable {κ : Type}

/-- The steps of the producer and of the consumers. -/
inductive Step (s : Handoff κ) : Handoff κ → Prop
  /-- Taking, storing, entering a known key again: nothing is dropped and no key is lost. -/
  | rearrange (W I : List κ) (K L : κ → Prop) (waiting : W.Perm s.waiting)
      (installing : I.Perm s.installing) (known : ∀ x, K x ↔ s.known x)
      (located : ∀ x, s.located x → L x) :
      Step s { s with waiting := W, installing := I, known := K, located := L }
  | list (k : κ) (known : s.known k) : Step s { s with listed := s.listed ++ [k] }
  | abandon (producer : s.producer = .other) : Step s { s with listed := [] }
  | announce (k : κ) (producer : s.producer = .other) (unknown : ¬ s.known k) :
      Step s { s with producer := .caching k, listed := s.listed ++ [k] }
  | cache (k : κ) (C : κ → Prop) (producer : s.producer = .caching k)
      (cached : ∀ x, C x ↔ x = k ∨ s.cached x) :
      Step s { s with producer := .queueing k, cached := C }
  | queue (k : κ) (W : List κ) (producer : s.producer = .queueing k)
      (waiting : W.Perm (k :: s.waiting)) :
      Step s { s with producer := .entering k, waiting := W }
  | enter (k : κ) (K L : κ → Prop) (producer : s.producer = .entering k)
      (known : ∀ x, K x ↔ x = k ∨ s.known x) (located : ∀ x, s.located x → L x) :
      Step s { s with producer := .other, known := K, located := L }
  | uncache (k : κ) (W I : List κ) (C : κ → Prop) (waiting : s.waiting.Perm (k :: W))
      (installing : I.Perm (k :: s.installing)) (cached : ∀ x, C x ↔ s.cached x ∧ x ≠ k)
      (unreturned : k ∈ s.returned → s.located k) :
      Step s { s with waiting := W, installing := I, cached := C }
  | install (k : κ) (W I : List κ) (K L : κ → Prop) (waiting : W.Perm s.waiting)
      (installing : s.installing.Perm (k :: I)) (known : ∀ x, K x ↔ x = k ∨ s.known x)
      (located : ∀ x, x = k ∨ s.located x → L x) :
      Step s { s with waiting := W, installing := I, known := K, located := L }
  | handOver (producer : s.producer = .other)
      (entered : ∀ k ∈ s.listed, k ∈ s.installing → s.located k) :
      Step s { s with listed := [], returned := s.returned ++ s.listed }

/-- What the stage of a key says about the cache and the index. -/
structure Sound (s : Handoff κ) : Prop where
  unique : (s.waiting ++ s.installing).Nodup
  cached : ∀ k, s.cached k ↔ k ∈ s.waiting ∨ s.producer = .queueing k
  unknown : ∀ k, s.producer = .caching k ∨ s.producer = .queueing k → ¬ s.known k
  entering : ∀ k, s.producer = .entering k → k ∈ s.waiting ∨ k ∈ s.installing ∨ s.located k
  flying : ∀ k, k ∈ s.waiting ∨ k ∈ s.installing → s.known k ∨ s.producer = .entering k
  found : ∀ k, s.known k → k ∈ s.waiting ∨ k ∈ s.installing ∨ s.located k
  listed : ∀ k ∈ s.listed, s.known k ∨ s.producer = .caching k ∨ s.producer = .queueing k ∨
    s.producer = .entering k
  returned : ∀ k ∈ s.returned, s.known k ∧ (k ∈ s.waiting ∨ s.located k)

/-- A returned key is cached, or the index leads to its data. -/
theorem Sound.cached_or_located {s : Handoff κ} (hs : s.Sound) {k : κ} (h : k ∈ s.returned) :
    s.cached k ∨ s.located k := by
  rcases (hs.returned k h).2 with hw | hl
  · exact .inl ((hs.cached k).mpr (.inl hw))
  · exact .inr hl

/-- Once no consumer has it, the index leads to its data. -/
theorem Sound.located {s : Handoff κ} (hs : s.Sound) {k : κ} (h : k ∈ s.returned)
    (hk : k ∉ s.waiting) : s.located k :=
  (hs.returned k h).2.resolve_left hk

variable {s : Handoff κ}

theorem Sound.rearrange (hs : s.Sound) {W I : List κ} {K L : κ → Prop} (hW : W.Perm s.waiting)
    (hI : I.Perm s.installing) (hK : ∀ x, K x ↔ s.known x) (hL : ∀ x, s.located x → L x) :
    Sound { s with waiting := W, installing := I, known := K, located := L } where
  unique := (hW.append hI).nodup_iff.mpr hs.unique
  cached k := by
    show s.cached k ↔ k ∈ W ∨ _
    rw [hW.mem_iff]
    exact hs.cached k
  unknown k h hk := hs.unknown k h ((hK k).mp hk)
  entering k h := by
    show k ∈ W ∨ k ∈ I ∨ L k
    rw [hW.mem_iff, hI.mem_iff]
    exact (hs.entering k h).imp_right (Or.imp_right (hL k))
  flying k h := by
    show K k ∨ _
    rw [hK]
    exact hs.flying k (h.imp hW.mem_iff.mp hI.mem_iff.mp)
  found k h := by
    show k ∈ W ∨ k ∈ I ∨ L k
    rw [hW.mem_iff, hI.mem_iff]
    exact (hs.found k ((hK k).mp h)).imp_right (Or.imp_right (hL k))
  listed k h := (hs.listed k h).imp_left (hK k).mpr
  returned k h := ⟨(hK k).mpr (hs.returned k h).1,
    (hs.returned k h).2.imp hW.mem_iff.mpr (hL k)⟩

/-- A key that was announced was not in flight before. -/
theorem Sound.not_flying (hs : s.Sound) {k : κ} (h : s.producer = .queueing k) :
    k ∉ s.waiting ++ s.installing := by
  intro hk
  rcases hs.flying k (List.mem_append.mp hk) with hknown | he
  · exact hs.unknown k (.inr h) hknown
  · rw [h] at he
    cases he

theorem Sound.queue (hs : s.Sound) {k : κ} {W : List κ} (hp : s.producer = .queueing k)
    (hW : W.Perm (k :: s.waiting)) :
    Sound { s with producer := .entering k, waiting := W } where
  unique := by
    have h : (k :: (s.waiting ++ s.installing)).Nodup :=
      List.nodup_cons.mpr ⟨hs.not_flying hp, hs.unique⟩
    exact (hW.append_right s.installing).nodup_iff.mpr h
  cached x := by
    show s.cached x ↔ x ∈ W ∨ _
    rw [hs.cached, hp, hW.mem_iff, List.mem_cons]
    constructor
    · rintro (h | h)
      · exact .inl (.inr h)
      · cases h
        exact .inl (.inl rfl)
    · rintro ((rfl | h) | h)
      · exact .inr rfl
      · exact .inl h
      · cases h
  unknown x h := by rcases h with h | h <;> cases h
  entering x h := by
    cases h
    exact .inl (hW.mem_iff.mpr List.mem_cons_self)
  flying x h := by
    by_cases e : x = k
    · exact .inr (by rw [e])
    · have hx : x ∈ s.waiting ∨ x ∈ s.installing :=
        h.imp_left fun h => (List.mem_cons.mp (hW.mem_iff.mp h)).resolve_left e
      refine .inl ((hs.flying x hx).resolve_right fun he => ?_)
      rw [hp] at he
      cases he
  found x h := (hs.found x h).imp_left fun h => hW.mem_iff.mpr (List.mem_cons_of_mem k h)
  listed x h := by
    rcases hs.listed x h with h | h | h | h
    · exact .inl h
    · rw [hp] at h
      cases h
    · rw [hp] at h
      cases h
      exact .inr (.inr (.inr rfl))
    · rw [hp] at h
      cases h
  returned x h := ⟨(hs.returned x h).1,
    (hs.returned x h).2.imp_left fun h => hW.mem_iff.mpr (List.mem_cons_of_mem k h)⟩

theorem Sound.enter (hs : s.Sound) {k : κ} {K L : κ → Prop} (hp : s.producer = .entering k)
    (hK : ∀ x, K x ↔ x = k ∨ s.known x) (hL : ∀ x, s.located x → L x) :
    Sound { s with producer := .other, known := K, located := L } where
  unique := hs.unique
  cached x := by
    rw [hs.cached, hp]
    exact or_congr_right ⟨(fun h => by cases h), (fun h => by cases h)⟩
  unknown x h := by rcases h with h | h <;> cases h
  entering x h := by cases h
  flying x h := by
    refine .inl ((hK x).mpr ?_)
    rcases hs.flying x h with h | h
    · exact .inr h
    · rw [hp] at h
      cases h
      exact .inl rfl
  found x h := by
    rcases (hK x).mp h with rfl | h
    · exact (hs.entering x hp).imp_right (Or.imp_right (hL x))
    · exact (hs.found x h).imp_right (Or.imp_right (hL x))
  listed x h := by
    refine .inl ((hK x).mpr ?_)
    rcases hs.listed x h with h | h | h | h
    · exact .inr h
    all_goals
      rw [hp] at h
      cases h
    exact .inl rfl
  returned x h := ⟨(hK x).mpr (.inr (hs.returned x h).1), (hs.returned x h).2.imp_right (hL x)⟩

theorem Sound.uncache (hs : s.Sound) {k : κ} {W I : List κ} {C : κ → Prop}
    (hW : s.waiting.Perm (k :: W)) (hI : I.Perm (k :: s.installing))
    (hC : ∀ x, C x ↔ s.cached x ∧ x ≠ k) (hk : k ∈ s.returned → s.located k) :
    Sound { s with waiting := W, installing := I, cached := C } where
  unique := by
    have h : (W ++ I).Perm (s.waiting ++ s.installing) :=
      calc W ++ I
        _ |>.Perm (W ++ k :: s.installing) := hI.append_left W
        _ |>.Perm (k :: (W ++ s.installing)) := List.perm_middle
        _ |>.Perm (s.waiting ++ s.installing) := (hW.append_right s.installing).symm
    exact h.nodup_iff.mpr hs.unique
  cached x := by
    have hnot : k ∉ W := by
      have h := (hW.append_right s.installing).nodup_iff.mp hs.unique
      exact fun hk => (List.nodup_cons.mp h).1 (List.mem_append_left _ hk)
    have hproducer : s.producer ≠ .queueing k := fun hp =>
      hs.not_flying hp (List.mem_append_left _ (hW.mem_iff.mpr List.mem_cons_self))
    show C x ↔ x ∈ W ∨ s.producer = .queueing x
    rw [hC, hs.cached, hW.mem_iff, List.mem_cons]
    constructor
    · rintro ⟨(rfl | h) | h, hne⟩
      · exact absurd rfl hne
      · exact .inl h
      · exact .inr h
    · rintro (h | h)
      · exact ⟨.inl (.inr h), fun e => hnot (e ▸ h)⟩
      · exact ⟨.inr h, fun e => hproducer (e ▸ h)⟩
  unknown := hs.unknown
  entering x h := by
    show x ∈ W ∨ x ∈ I ∨ s.located x
    rw [hI.mem_iff, List.mem_cons]
    rcases hs.entering x h with h | h | h
    · rcases List.mem_cons.mp (hW.mem_iff.mp h) with e | h
      · exact .inr (.inl (.inl e))
      · exact .inl h
    · exact .inr (.inl (.inr h))
    · exact .inr (.inr h)
  flying x h := by
    refine hs.flying x ?_
    rcases h with h | h
    · exact .inl (hW.mem_iff.mpr (List.mem_cons_of_mem k h))
    · rcases List.mem_cons.mp (hI.mem_iff.mp h) with e | h
      · exact .inl (hW.mem_iff.mpr (e ▸ List.mem_cons_self))
      · exact .inr h
  found x h := by
    show x ∈ W ∨ x ∈ I ∨ s.located x
    rw [hI.mem_iff, List.mem_cons]
    rcases hs.found x h with h | h | h
    · rcases List.mem_cons.mp (hW.mem_iff.mp h) with e | h
      · exact .inr (.inl (.inl e))
      · exact .inl h
    · exact .inr (.inl (.inr h))
    · exact .inr (.inr h)
  listed := hs.listed
  returned x h := by
    refine ⟨(hs.returned x h).1, ?_⟩
    rcases (hs.returned x h).2 with hw | hl
    · rcases List.mem_cons.mp (hW.mem_iff.mp hw) with rfl | hw
      · exact .inr (hk h)
      · exact .inl hw
    · exact .inr hl

theorem Sound.install (hs : s.Sound) {k : κ} {W I : List κ} {K L : κ → Prop}
    (hW : W.Perm s.waiting) (hI : s.installing.Perm (k :: I))
    (hK : ∀ x, K x ↔ x = k ∨ s.known x) (hL : ∀ x, x = k ∨ s.located x → L x) :
    Sound { s with waiting := W, installing := I, known := K, located := L } where
  unique := by
    have h := (hW.symm.append hI).nodup_iff.mp hs.unique
    exact (List.nodup_cons.mp (List.perm_middle.nodup_iff.mp h)).2
  cached x := by
    show s.cached x ↔ x ∈ W ∨ _
    rw [hW.mem_iff]
    exact hs.cached x
  unknown x h hx := by
    rcases (hK x).mp hx with rfl | hx
    · have hflying : x ∈ s.waiting ∨ x ∈ s.installing :=
        .inr (hI.mem_iff.mpr List.mem_cons_self)
      rcases hs.flying x hflying with hknown | he
      · exact hs.unknown x h hknown
      · replace h : s.producer = .caching x ∨ s.producer = .queueing x := h
        rw [he] at h
        rcases h with h | h <;> cases h
    · exact hs.unknown x h hx
  entering x h := by
    show x ∈ W ∨ x ∈ I ∨ L x
    rw [hW.mem_iff]
    rcases hs.entering x h with h | h | h
    · exact .inl h
    · rcases List.mem_cons.mp (hI.mem_iff.mp h) with e | h
      · exact .inr (.inr (hL x (.inl e)))
      · exact .inr (.inl h)
    · exact .inr (.inr (hL x (.inr h)))
  flying x h := by
    show K x ∨ _
    rw [hK]
    have hx : x ∈ s.waiting ∨ x ∈ s.installing :=
      h.imp hW.mem_iff.mp fun h => hI.mem_iff.mpr (List.mem_cons_of_mem k h)
    exact (hs.flying x hx).imp_left .inr
  found x h := by
    show x ∈ W ∨ x ∈ I ∨ L x
    rw [hW.mem_iff]
    rcases (hK x).mp h with rfl | h
    · exact .inr (.inr (hL x (.inl rfl)))
    · rcases hs.found x h with h | h | h
      · exact .inl h
      · rcases List.mem_cons.mp (hI.mem_iff.mp h) with e | h
        · exact .inr (.inr (hL x (.inl e)))
        · exact .inr (.inl h)
      · exact .inr (.inr (hL x (.inr h)))
  listed x h := (hs.listed x h).imp_left fun h => (hK x).mpr (.inr h)
  returned x h := ⟨(hK x).mpr (.inr (hs.returned x h).1),
    (hs.returned x h).2.imp hW.mem_iff.mpr fun h => hL x (.inr h)⟩

/-- **Every step keeps what the stages say.** -/
theorem Sound.step {t : Handoff κ} (hs : s.Sound) (h : Step s t) : t.Sound := by
  cases h with
  | rearrange W I K L hW hI hK hL => exact hs.rearrange hW hI hK hL
  | list k hk =>
    exact { hs with
      listed := fun x hx => (List.mem_append.mp hx).elim (hs.listed x) fun h => by
        rw [List.mem_singleton.mp h]
        exact .inl hk }
  | abandon hp => exact { hs with listed := fun _ h => by cases h }
  | announce k hp hk =>
    refine ⟨hs.unique, fun x => ?_, fun x h => ?_, (fun x h => by cases h), fun x h => ?_, hs.found,
      fun x hx => ?_, hs.returned⟩
    · rw [hs.cached, hp]
      exact or_congr_right ⟨(fun h => by cases h), (fun h => by cases h)⟩
    · rcases h with h | h
      · cases h
        exact hk
      · cases h
    · refine .inl ((hs.flying x h).resolve_right fun he => ?_)
      rw [hp] at he
      cases he
    · rcases List.mem_append.mp hx with hx | hx
      · refine .inl ((hs.listed x hx).resolve_right fun he => ?_)
        rw [hp] at he
        rcases he with h | h | h <;> cases h
      · exact .inr (.inl (by rw [List.mem_singleton.mp hx]))
  | cache k C hp hC =>
    refine ⟨hs.unique, fun x => ?_, fun x h => ?_, (fun x h => by cases h), fun x h => ?_, hs.found,
      fun x hx => ?_, hs.returned⟩
    · show C x ↔ x ∈ s.waiting ∨ _
      rw [hC, hs.cached, hp]
      constructor
      · rintro (rfl | h | h)
        · exact .inr rfl
        · exact .inl h
        · cases h
      · rintro (h | h)
        · exact .inr (.inl h)
        · cases h
          exact .inl rfl
    · rcases h with h | h
      · cases h
      · cases h
        exact hs.unknown k (.inl hp)
    · refine .inl ((hs.flying x h).resolve_right fun he => ?_)
      rw [hp] at he
      cases he
    · rcases hs.listed x hx with h | h | h | h
      · exact .inl h
      all_goals
        rw [hp] at h
        cases h
      exact .inr (.inr (.inl rfl))
  | queue k W hp hW => exact hs.queue hp hW
  | enter k K L hp hK hL => exact hs.enter hp hK hL
  | uncache k W I C hW hI hC hk => exact hs.uncache hW hI hC hk
  | install k W I K L hW hI hK hL => exact hs.install hW hI hK hL
  | handOver hp he =>
    refine { hs with
      listed := fun _ h => by cases h
      returned := fun x hx => ?_ }
    rcases List.mem_append.mp hx with hx | hx
    · exact hs.returned x hx
    · have hknown : s.known x := (hs.listed x hx).resolve_right fun h => by
        rw [hp] at h
        rcases h with h | h | h <;> cases h
      refine ⟨hknown, ?_⟩
      rcases hs.found x hknown with h | h | h
      · exact .inl h
      · exact .inr (he x hx h)
      · exact .inr h

end Handoff

end Pylib
