import VeratyFS.Reclaimed
import VeratyFS.Stores

/-!
# Space

When are the bytes of a block gone after passes that run more than five seconds after its last drop?

* `Held` — the bytes of a hash are in the store that its entry names.
* `Separate` — rocksdb uses the datastores only, every other backend the small-block database only.
* `Timing` — a pass is late for an entry with a deletion time; an entry without one is given the
  time of the pass.
* `collectLoop_smallBlocks` — outside rocksdb a pass takes every request, and the record of a hash
  is deleted when enough requests are queued.
* `held_passes_iff` — the bytes are gone exactly for a small block outside rocksdb whose queued
  requests outnumber its counter.
* `held_single` — a block of one file stays in its store.
-/

set_option autoImplicit false
set_option maxRecDepth 1024

namespace VeratyFS

open Pylib

variable {H : Type} [DecidableEq H] {cfg : Config} {P : Packages H} {g g' : Globals H}

/-- Passes one after the other. -/
def passes (cfg : Config) : List (Nat → Time) → Globals H → Globals H
  | [], g => g
  | clock :: rest, g => passes cfg rest (garbageCollector cfg clock g).2

/-- The location that an entry's chunk names. -/
def Block.location {H : Type} (n : Nat) (b : Block H) : Option Location :=
  if b.chunk = -1 then some .smallBlocks else (index? n b.chunk).map .datastore

/-- The bytes of a hash are in the store that its entry names. -/
def Held (g : Globals H) (h : H) : Prop :=
  ∃ b loc, g.hashTable.d.get? h = some b ∧ b.location g.datastore.length = some loc ∧
    (bytesAt g loc h).isSome

/-- rocksdb leaves the small-block database empty, the other backends the datastores. -/
structure Separate (cfg : Config) (g : Globals H) : Prop where
  rocksdb : cfg.backend = .rocksdb → ∀ h, g.smallBlocks.get? h = none
  others : cfg.backend ≠ .rocksdb → ∀ j h, stored g.datastore j h = none

/-- rocksdb leaves the small-block database as it is, the other backends the datastores. -/
structure OneKind (cfg : Config) (g g' : Globals H) : Prop where
  rocksdb : cfg.backend = .rocksdb → g'.smallBlocks = g.smallBlocks
  others : cfg.backend ≠ .rocksdb → g'.datastore = g.datastore

omit [DecidableEq H] in
instance : Py.Frame (@OneKind H cfg) :=
  ⟨fun _ => ⟨fun _ => rfl, fun _ => rfl⟩, fun h h' =>
    ⟨fun hb => (h'.rocksdb hb).trans (h.rocksdb hb), fun hb => (h'.others hb).trans (h.others hb)⟩⟩

theorem Separate.of_kind (hs : Separate cfg g) (h : OneKind cfg g g') : Separate cfg g' :=
  ⟨fun hb => by rw [h.rocksdb hb]; exact hs.rocksdb hb,
    fun hb => by rw [h.others hb]; exact hs.others hb⟩

theorem commitBlock_kind (cfg : Config) (env : CommitEnv) (q : QueuedWrite H) :
    Py.Keeps (OneKind cfg) (commitBlock cfg env q) := by
  unfold commitBlock
  split
  · rename_i hsmall
    refine Py.keeps_bind (fun g => ⟨fun hb => absurd hb hsmall.1, fun _ => rfl⟩) fun _ => ?_
    exact Py.keeps_pure _
  · refine Py.keeps_attempt ?_ fun _ => Py.keeps_raise _
    unfold commitData
    cases hb : cfg.backend with
    | rocksdb =>
      refine Py.keeps_bind (fun g => ⟨fun _ => rfl, fun hne => absurd hb hne⟩) fun _ => ?_
      split
      · exact fun g => ⟨fun _ => rfl, fun hne => absurd hb hne⟩
      · exact Py.keeps_pure _
    | mmap => exact Py.keeps_raise _
    | unset => exact Py.keeps_raise _

theorem writeNewBlock_kind (cfg : Config) (env : CommitEnv) :
    Py.Keeps (OneKind (H := H) cfg) (writeNewBlock cfg env) := by
  refine Py.keeps_bind Py.keeps_read fun g => ?_
  split
  · exact Py.keeps_pure _
  · refine Py.keeps_bind (Py.keeps_modify fun g => ⟨fun _ => rfl, fun _ => rfl⟩) fun _ => ?_
    refine Py.keeps_attempt (Py.keeps_bind (commitBlock_kind cfg env _) fun q' g => ?_) fun e => ?_
    · rw [installBlock_run]
      exact ⟨fun _ => rfl, fun _ => rfl⟩
    · split
      · exact Py.keeps_raise _
      · exact Py.keeps_ret _

theorem Collected.separate {now : Time} {h : H} {b : Block H} (hc : Collected cfg now h b g g')
    (hs : Separate cfg g) : Separate cfg g' := by
  refine ⟨fun hb k => ?_, fun hb j k => ?_⟩
  · rw [hc.smallBlocks]
    split
    · rw [Dict.get?_erase]
      split
      · rfl
      · exact hs.rocksdb hb k
    · exact hs.rocksdb hb k
  · rw [hc.datastore]
    exact hs.others hb j k

/-- What the passes below need of the module state. -/
structure Ready (cfg : Config) (g : Globals H) : Prop where
  placed : Placed g
  remembered : Remembered g
  separate : Separate cfg g

theorem Collected.ready {now : Time} {h : H} {rest : List H} {b : Block H}
    (hc : Collected cfg now h b { g with removeUses := rest } g') (hq : g.removeUses = h :: rest)
    (hb : g.hashTable.d.get? h = some b) (hg : Ready cfg g) : Ready cfg g' := by
  have hp : Placed { g with removeUses := rest } :=
    ⟨hg.placed.entries, hg.placed.stores, hg.placed.nonempty⟩
  have hs : Separate cfg { g with removeUses := rest } := ⟨hg.separate.rocksdb, hg.separate.others⟩
  exact ⟨hc.placed hb hp, hc.remembered hq hb hg.remembered, hc.separate hs⟩

theorem Ready.commit (hg : Ready cfg g) : Ready cfg { g with hashTable := g.hashTable.commit } :=
  ⟨⟨hg.placed.entries, hg.placed.stores, hg.placed.nonempty⟩,
    ⟨hg.remembered.removeUses, hg.remembered.reclaimed⟩, ⟨hg.separate.rocksdb, hg.separate.others⟩⟩

theorem Ready.pass (hg : Ready cfg g) (clock : Nat → Time) :
    Ready cfg (garbageCollector cfg clock g).2 :=
  garbageCollector_invariant cfg clock (I := Ready cfg)
    (fun _ hg h hh => (contains_iff_get? _ _).mp (hg.remembered.removeUses h hh))
    (fun _ _ _ _ _ _ hg hq hb hc => hc.ready hq hb hg) (fun _ hg => hg.commit) hg

/-- **Every step keeps the module state ready.** -/
theorem ready_preserved (cfg : Config) : Preserved (H := H) cfg (Ready cfg) where
  caches hc hg := by
    obtain ⟨hp, hr⟩ := (placed_preserved cfg).caches hc ⟨hg.placed, hg.remembered⟩
    exact ⟨hp, hr, hg.separate.of_kind ⟨fun _ => hc.smallBlocks, fun _ => hc.datastore⟩⟩
  refers hr hg := by
    obtain ⟨hp, hrem⟩ := (placed_preserved cfg).refers hr ⟨hg.placed, hg.remembered⟩
    refine ⟨hp, hrem, hg.separate.of_kind ?_⟩
    cases hr with
    | known b _ _ _ kept => exact ⟨fun _ => kept.smallBlocks, fun _ => kept.datastore⟩
    | new q _ _ _ _ kept => exact ⟨fun _ => kept.smallBlocks, fun _ => kept.datastore⟩
  dropped hb hd hg := by
    obtain ⟨hp, hr⟩ := (placed_preserved cfg).dropped hb hd ⟨hg.placed, hg.remembered⟩
    exact ⟨hp, hr, hg.separate.of_kind ⟨fun _ => hd.smallBlocks, fun _ => hd.datastore⟩⟩
  writer env {g} hg := by
    obtain ⟨hp, hr⟩ := (placed_preserved cfg).writer env ⟨hg.placed, hg.remembered⟩
    exact ⟨hp, hr, hg.separate.of_kind (writeNewBlock_kind cfg env g)⟩
  collect clock {g} hg := hg.pass clock
  commit hg := hg.commit

/-! ## One pass outside rocksdb -/

/-- A pass is late for an entry with a deletion time (`late`); an entry without one is not deleted
    in the pass that gives it its time, when the pass is short. -/
def Timing {H : Type} (clock : Nat → Time) (late : Prop) (b : Block H) : Prop :=
  (late ∧ ∃ t, b.DELETION_TIME = some t ∧ ∀ i, seconds 5 < clock i - t) ∨
  (¬ late ∧ (∀ i, ¬ graceOver (clock i) b) ∧
    (b.DELETION_TIME = none → ∀ i j, clock i - clock j ≤ seconds 5))

omit [DecidableEq H] in
theorem Timing.due_iff {clock : Nat → Time} {late : Prop} {b : Block H} (h : Timing clock late b)
    (i : Nat) : due (clock i) b ↔ late ∧ b.uses ≤ 0 := by
  unfold due
  rcases h with ⟨hl, t, ht, hclock⟩ | ⟨hl, hnever, _⟩
  · have hgrace : graceOver (clock i) b := ⟨t, ht, hclock i⟩
    constructor
    · exact fun ⟨hu, _⟩ => ⟨hl, by omega⟩
    · exact fun ⟨_, hu⟩ => ⟨by omega, hgrace⟩
  · exact ⟨fun ⟨_, hgrace⟩ => absurd hgrace (hnever i), fun ⟨h, _⟩ => absurd h hl⟩

omit [DecidableEq H] in
theorem Timing.collected {clock : Nat → Time} {late : Prop} {b : Block H} (h : Timing clock late b)
    (i : Nat) : Timing clock late (collected (clock i) b) := by
  rcases h with ⟨hl, t, ht, hclock⟩ | ⟨hl, hnever, hshort⟩
  · refine .inl ⟨hl, t, ?_, hclock⟩
    unfold VeratyFS.collected
    dsimp only
    rw [if_neg fun hc => by rw [ht] at hc; cases hc.2]
    exact ht
  · refine .inr ⟨hl, fun j hgrace => ?_, fun hn => hshort ?_⟩
    · obtain ⟨t, ht, hlt⟩ := hgrace
      unfold VeratyFS.collected at ht
      dsimp only at ht
      split at ht
      · rename_i hset
        cases ht
        exact absurd hlt (Int.not_lt.mpr (hshort hset.2 j i))
      · exact hnever j ⟨t, ht, hlt⟩
    · unfold VeratyFS.collected at hn
      dsimp only at hn
      split at hn
      · cases hn
      · exact hn

/-- The record of `h` is deleted in a pass with so many requests of `h` queued. -/
def deletedInPass (cfg : Config) (late : Prop) (b : Block H) (requests : Nat) : Prop :=
  late ∧ b.size ≤ cfg.smallBlockLimit ∧ 0 < requests ∧ b.uses < requests

/-- The records that a round deletes. -/
theorem Collected.record {now : Time} {h : H} {b : Block H} (hc : Collected cfg now h b g g') (k : H) :
    g'.smallBlocks.get? k = none ↔ g.smallBlocks.get? k = none ∨
      (h = k ∧ due now b ∧ b.size ≤ cfg.smallBlockLimit ∧ cfg.smallBlockDbPath = .path) := by
  rw [hc.smallBlocks]
  split
  · rename_i hdel
    rw [Dict.get?_erase]
    split
    · rename_i hk
      exact ⟨fun _ => .inr ⟨hk, hdel⟩, fun _ => rfl⟩
    · rename_i hk
      exact ⟨.inl, fun h => h.elim id fun h => absurd h.1 hk⟩
  · rename_i hkeep
    exact ⟨.inl, fun h => h.elim id fun h => absurd h.2 hkeep⟩

omit [DecidableEq H] in
/-- One request less, and a use less: the record is deleted now or later in the pass. -/
theorem deletedInPass_succ (hpath : cfg.smallBlockDbPath = .path) {clock : Nat → Time} {late : Prop}
    {b : Block H} (htime : Timing clock late b) (n requests : Nat) :
    ((due (clock n) b ∧ b.size ≤ cfg.smallBlockLimit ∧ cfg.smallBlockDbPath = .path) ∨
      deletedInPass cfg late (collected (clock n) b) requests) ↔
      deletedInPass cfg late b (requests + 1) := by
  rw [htime.due_iff n]
  have huses : (collected (clock n) b).uses = b.uses - 1 := rfl
  have hsize : (collected (clock n) b).size = b.size := rfl
  unfold deletedInPass
  rw [huses, hsize]
  constructor
  · rintro (⟨⟨hl, hu⟩, hs, _⟩ | ⟨hl, hs, _, hu⟩) <;> exact ⟨hl, hs, by omega, by omega⟩
  · rintro ⟨hl, hs, _, hu⟩
    by_cases hzero : b.uses ≤ 0
    · exact .inl ⟨⟨hl, hzero⟩, hs, hpath⟩
    · exact .inr ⟨hl, hs, by omega, by omega⟩

/-- **A pass outside rocksdb**, with one path for the small blocks, takes every request; the record
of a hash is gone when it was before or when its requests outnumber its counter. -/
theorem collectLoop_smallBlocks (hbackend : cfg.backend ≠ .rocksdb)
    (hpath : cfg.smallBlockDbPath = .path) {clock : Nat → Time} {late : Prop} {h : H} :
    ∀ (n : Nat) (g : Globals H) (b : Block H), Ready cfg g → g.removeUses.length ≤ n →
      g.hashTable.d.get? h = some b → Timing clock late b →
      ∃ g' b', collectLoop cfg clock n g = (.ok (), g') ∧ g'.removeUses = [] ∧
        g'.hashTable.d.get? h = some b' ∧ b'.chunk = b.chunk ∧
        (g'.smallBlocks.get? h = none ↔
          g.smallBlocks.get? h = none ∨ deletedInPass cfg late b (g.removeUses.count h))
  | 0, g, b, _, hlen, hb, _ => by
    have hnil : g.removeUses = [] := List.length_eq_zero_iff.mp (by omega)
    refine ⟨g, b, rfl, hnil, hb, rfl, ?_⟩
    rw [hnil]
    exact ⟨.inl, fun hd => hd.elim id fun hd => absurd hd.2.2.1 (by simp)⟩
  | n + 1, g, b, hg, hlen, hb, htime => by
    cases hq : g.removeUses with
    | nil =>
      refine ⟨g, b, collectLoop_empty cfg clock (n + 1) hq, hq, hb, rfl, ?_⟩
      exact ⟨.inl, fun hd => hd.elim id fun hd => absurd hd.2.2.1 (by simp)⟩
    | cons k rest =>
      rw [collectLoop_next cfg clock n hq]
      obtain ⟨bk, hbk⟩ := (contains_iff_get? _ _).mp
        (hg.remembered.removeUses k (by rw [hq]; exact List.mem_cons_self))
      have hok : (collectHash cfg (clock n) k { g with removeUses := rest }).1 = .ok () :=
        collectHash_ok hbackend hpath hbk (hg.placed.entries k bk hbk)
      have hc := collectHash_effect cfg (clock n) (g := { g with removeUses := rest }) hbk
      cases hr : collectHash cfg (clock n) k { g with removeUses := rest } with
      | mk r g₁ =>
        rw [hr] at hok hc
        dsimp only at hok hc
        subst hok
        have hg₁ := hc.ready hq hbk hg
        have hrem : g₁.removeUses = rest := hc.removeUses
        rw [hq, List.length_cons] at hlen
        have hstep : ∀ b₁, g₁.hashTable.d.get? h = some b₁ → Timing clock late b₁ →
            b₁.chunk = b.chunk → (g₁.smallBlocks.get? h = none ∨
              deletedInPass cfg late b₁ (rest.count h) ↔
              g.smallBlocks.get? h = none ∨ deletedInPass cfg late b ((k :: rest).count h)) →
            ∃ g' b', (collectHash cfg (clock n) k >>= fun _ => collectLoop cfg clock n)
                { g with removeUses := rest } = (.ok (), g') ∧ g'.removeUses = [] ∧
              g'.hashTable.d.get? h = some b' ∧ b'.chunk = b.chunk ∧
              (g'.smallBlocks.get? h = none ↔
                g.smallBlocks.get? h = none ∨ deletedInPass cfg late b ((k :: rest).count h)) := by
          intro b₁ hb₁ htime₁ hchunk hiff
          obtain ⟨g', b', hrun, hnil, hb', hch, hgone⟩ :=
            collectLoop_smallBlocks hbackend hpath n g₁ b₁ hg₁ (by rw [hrem]; omega) hb₁ htime₁
          rw [hrem] at hgone
          exact ⟨g', b', (Py.run_bind_ok hr).trans hrun, hnil, hb', hch.trans hchunk, hgone.trans hiff⟩
        by_cases hk : k = h
        · subst hk
          rw [hb] at hbk
          cases hbk
          refine hstep (collected (clock n) b) ((hc.table k).trans (if_pos rfl)) (htime.collected n)
            rfl ?_
          rw [hc.record, List.count_cons_self, ← deletedInPass_succ hpath htime n, or_assoc]
          refine or_congr Iff.rfl (or_congr ⟨fun hd => hd.2, fun hd => ⟨rfl, hd⟩⟩ Iff.rfl)
        · have hb₁ : g₁.hashTable.d.get? h = some b := by
            rw [hc.table, if_neg hk]
            exact hb
          refine hstep b hb₁ htime rfl ?_
          rw [List.count_cons_of_ne hk, hc.record]
          refine or_congr ⟨fun hd => hd.elim id fun hd => absurd hd.1 hk, .inl⟩ Iff.rfl

theorem pass_smallBlocks (hbackend : cfg.backend ≠ .rocksdb) (hpath : cfg.smallBlockDbPath = .path)
    {clock : Nat → Time} {late : Prop} {h : H} {b : Block H} (hg : Ready cfg g)
    (hb : g.hashTable.d.get? h = some b) (htime : Timing clock late b) :
    (garbageCollector cfg clock g).2.removeUses = [] ∧
    (∃ b', (garbageCollector cfg clock g).2.hashTable.d.get? h = some b' ∧ b'.chunk = b.chunk) ∧
    ((garbageCollector cfg clock g).2.smallBlocks.get? h = none ↔
      g.smallBlocks.get? h = none ∨ deletedInPass cfg late b (g.removeUses.count h)) := by
  obtain ⟨g', b', hrun, hnil, hb', hchunk, hgone⟩ :=
    collectLoop_smallBlocks hbackend hpath g.removeUses.length g b hg (Nat.le_refl _) hb htime
  have hpass : garbageCollector cfg clock g =
      (.ok true, { g' with hashTable := g'.hashTable.commit }) :=
    (Py.run_bind_ok (Py.run_attempt_ok hrun)).trans rfl
  rw [hpass]
  exact ⟨hnil, ⟨b', hb', hchunk⟩, hgone⟩

theorem passes_idle (cfg : Config) : ∀ (clocks : List (Nat → Time)) (g : Globals H),
    g.removeUses = [] → (passes cfg clocks g).smallBlocks = g.smallBlocks ∧
      (passes cfg clocks g).datastore = g.datastore ∧
      (passes cfg clocks g).hashTable.d = g.hashTable.d
  | [], _, _ => ⟨rfl, rfl, rfl⟩
  | clock :: rest, g, hq => by
    have hpass : garbageCollector cfg clock g = (.ok true, { g with hashTable := g.hashTable.commit }) :=
      (Py.run_bind_ok (Py.run_attempt_ok (collectLoop_empty cfg clock _ hq))).trans rfl
    unfold passes
    rw [hpass]
    exact passes_idle cfg rest { g with hashTable := g.hashTable.commit } hq

/-! ## Rocksdb, and a list of paths -/

/-- No round removes bytes on rocksdb, or with a list of paths for the small blocks. -/
theorem Collected.held {now : Time} {k h : H} {b : Block H} (hc : Collected cfg now k b g g')
    (hb : g.hashTable.d.get? k = some b) (hs : Separate cfg g)
    (hcfg : cfg.backend = .rocksdb ∨ cfg.smallBlockDbPath = .list) (hh : Held g h) : Held g' h := by
  obtain ⟨bh, loc, hbh, hloc, hbytes⟩ := hh
  have hentry : ∃ b', g'.hashTable.d.get? h = some b' ∧ b'.chunk = bh.chunk := by
    rw [hc.table]
    split
    · rename_i hk
      rw [hk, hbh] at hb
      cases hb
      exact ⟨_, rfl, rfl⟩
    · exact ⟨bh, hbh, rfl⟩
  obtain ⟨b', hb', hchunk⟩ := hentry
  refine ⟨b', loc, hb', ?_, ?_⟩
  · unfold Block.location at hloc ⊢
    rw [hchunk, hc.datastore]
    exact hloc
  · cases loc with
    | datastore j =>
      rw [bytesAt_datastore, hc.datastore]
      exact hbytes
    | smallBlocks =>
      rw [bytesAt_smallBlocks] at hbytes ⊢
      rcases hcfg with hrocks | hlist
      · rw [hs.rocksdb hrocks h] at hbytes
        cases hbytes
      · rw [hc.smallBlocks, if_neg fun hd => by rw [hlist] at hd; cases hd.2.2]
        exact hbytes

theorem held_passes (hcfg : cfg.backend = .rocksdb ∨ cfg.smallBlockDbPath = .list) {h : H} :
    ∀ (clocks : List (Nat → Time)) (g : Globals H), Ready cfg g → Held g h →
      Held (passes cfg clocks g) h
  | [], _, _, hh => hh
  | clock :: rest, g, hg, hh => by
    refine held_passes hcfg rest _ (hg.pass clock) ?_
    refine (garbageCollector_invariant cfg clock (I := fun g => Ready cfg g ∧ Held g h)
      (fun _ hI k hk => (contains_iff_get? _ _).mp (hI.1.remembered.removeUses k hk))
      (fun g g' now k rest b hI hq hb hc => ⟨hc.ready hq hb hI.1, ?_⟩)
      (fun g hI => ⟨hI.1.commit, hI.2⟩) ⟨hg, hh⟩).2
    have hs : Separate cfg { g with removeUses := rest } :=
      ⟨hI.1.separate.rocksdb, hI.1.separate.others⟩
    exact hc.held hb hs hcfg hI.2

/-! ## Every backend -/

/-- The passes are more than five seconds after the last drop, whose time the entry records; a first
    pass over an entry without a time lasts at most five seconds. -/
def Late {H : Type} (clock : Nat → Time) (b : Block H) : Prop :=
  match b.DELETION_TIME with
  | some t => ∀ i, seconds 5 < clock i - t
  | none => ∀ i j, clock i - clock j ≤ seconds 5

omit [DecidableEq H] in
theorem Late.timing {clock : Nat → Time} {b : Block H} (h : Late clock b) :
    Timing clock (b.DELETION_TIME ≠ none) b := by
  unfold Late at h
  cases hb : b.DELETION_TIME with
  | some t =>
    rw [hb] at h
    exact .inl ⟨(fun e => by cases e), t, hb, h⟩
  | none =>
    rw [hb] at h
    refine .inr ⟨fun hne => hne rfl, fun i hgrace => ?_, fun _ => h⟩
    obtain ⟨t, ht, _⟩ := hgrace
    rw [hb] at ht
    cases ht

/-- **Bytes that are held are gone after late passes** exactly for a small block outside rocksdb,
with one path for the small blocks, whose entry has a deletion time and fewer uses than requests. -/
theorem held_passes_ready (hg : Ready cfg g) {h : H} {b : Block H}
    (hb : g.hashTable.d.get? h = some b) (hheld : Held g h) {clock : Nat → Time}
    (hlate : Late clock b) (rest : List (Nat → Time)) :
    ¬ Held (passes cfg (clock :: rest) g) h ↔
      cfg.backend ≠ .rocksdb ∧ cfg.smallBlockDbPath = .path ∧ b.size ≤ cfg.smallBlockLimit ∧
        b.DELETION_TIME ≠ none ∧ 0 < g.removeUses.count h ∧ b.uses < g.removeUses.count h := by
  by_cases hcfg : cfg.backend = .rocksdb ∨ cfg.smallBlockDbPath = .list
  · refine ⟨fun hno => absurd (held_passes hcfg (clock :: rest) g hg hheld) hno, ?_⟩
    rintro ⟨hbackend, hpath, _⟩
    rcases hcfg with hrocks | hlist
    · exact absurd hrocks hbackend
    · rw [hpath] at hlist
      cases hlist
  · have hbackend : cfg.backend ≠ .rocksdb := fun e => hcfg (.inl e)
    have hpath : cfg.smallBlockDbPath = .path := by
      cases hp : cfg.smallBlockDbPath with
      | path => rfl
      | list => exact absurd (.inr hp) hcfg
    obtain ⟨hnil, ⟨b', hb', hchunk⟩, hgone⟩ := pass_smallBlocks hbackend hpath hg hb hlate.timing
    obtain ⟨hsmall, hds, htable⟩ := passes_idle cfg rest _ hnil
    -- the bytes are in the small-block database
    have hplace : b.chunk = -1 ∧ ∃ data, g.smallBlocks.get? h = some data := by
      obtain ⟨b₀, loc, hb₀, hloc, hbytes⟩ := hheld
      rw [hb] at hb₀
      cases hb₀
      unfold Block.location at hloc
      split at hloc
      · rename_i hc
        cases hloc
        exact ⟨hc, Option.isSome_iff_exists.mp hbytes⟩
      · obtain ⟨j, _, rfl⟩ := Option.map_eq_some_iff.mp hloc
        have hnone : stored g.datastore j h = none := hg.separate.others hbackend j h
        rw [bytesAt_datastore, hnone] at hbytes
        cases hbytes
    obtain ⟨hc, data, hdata⟩ := hplace
    have hafter : Held (passes cfg (clock :: rest) g) h ↔
        (garbageCollector cfg clock g).2.smallBlocks.get? h ≠ none := by
      constructor
      · rintro ⟨b₁, loc, hb₁, hloc, hbytes⟩
        have hb₁' : (garbageCollector cfg clock g).2.hashTable.d.get? h = some b₁ := by
          rw [← htable]
          exact hb₁
        rw [hb'] at hb₁'
        cases hb₁'
        unfold Block.location at hloc
        rw [if_pos (hchunk.trans hc)] at hloc
        cases hloc
        intro hnone
        have hbytes' : ((passes cfg (clock :: rest) g).smallBlocks.get? h).isSome := hbytes
        change ((passes cfg rest (garbageCollector cfg clock g).2).smallBlocks.get? h).isSome at hbytes'
        rw [hsmall, hnone] at hbytes'
        cases hbytes'
      · intro hsome
        refine ⟨b', .smallBlocks, ?_, ?_, ?_⟩
        · change (passes cfg rest (garbageCollector cfg clock g).2).hashTable.d.get? h = some b'
          rw [htable]
          exact hb'
        · unfold Block.location
          rw [if_pos (hchunk.trans hc)]
        · change ((passes cfg rest (garbageCollector cfg clock g).2).smallBlocks.get? h).isSome
          rw [hsmall]
          exact Option.isSome_iff_ne_none.mpr hsome
    rw [hafter, not_not, hgone, hdata]
    unfold deletedInPass
    constructor
    · rintro (hno | ⟨hl, hs, hpos, hu⟩)
      · cases hno
      · exact ⟨hbackend, hpath, hs, hl, hpos, hu⟩
    · rintro ⟨_, _, hs, hl, hpos, hu⟩
      exact .inr ⟨hl, hs, hpos, hu⟩

section

variable {cacheSize : Nat} {hpos : 0 < cacheSize} {ds mds : List (DataStore H)}

theorem Ready.fresh (hne : ds ≠ []) (hnum : Numbered ds) (hblank : ∀ d ∈ ds, d.db = Dict.empty) :
    Ready cfg (Fs.fresh cacheSize hpos ds mds).globals where
  placed := (Sound.fresh hne hnum).placed
  remembered := (Sound.fresh hne hnum : Sound (Fs.fresh cacheSize hpos ds mds)).remembered
  separate := by
    refine ⟨fun _ _ => rfl, fun _ j h => ?_⟩
    change stored ds j h = none
    unfold stored
    cases hd : ds[j]? with
    | none => rfl
    | some d =>
      change d.db.get? h = none
      rw [hblank d (List.mem_of_getElem? hd)]
      rfl

/-- **Space is reclaimed**, in every run and for every block in its store, exactly when the backend
is not rocksdb, the small blocks have one path, the block is a small one, and, when the late passes
start, its entry has a deletion time and fewer uses than requests. -/
theorem held_passes_iff (hne : ds ≠ []) (hnum : Numbered ds)
    (hblank : ∀ d ∈ ds, d.db = Dict.empty) {s : Fs H} {es : List (FsStep H)}
    (hrun : (fileSystem cfg P).Run (.fresh cacheSize hpos ds mds) es s) {h : H} {b : Block H}
    (hb : s.globals.hashTable.d.get? h = some b) (hheld : Held s.globals h) {clock : Nat → Time}
    (hlate : Late clock b) (rest : List (Nat → Time)) :
    ¬ Held (passes cfg (clock :: rest) s.globals) h ↔
      cfg.backend ≠ .rocksdb ∧ cfg.smallBlockDbPath = .path ∧ b.size ≤ cfg.smallBlockLimit ∧
        b.DELETION_TIME ≠ none ∧ 0 < s.globals.removeUses.count h ∧
        b.uses < s.globals.removeUses.count h :=
  held_passes_ready ((ready_preserved cfg).run hrun (.fresh hne hnum hblank)) hb hheld hlate rest

end

theorem sampleStores_blank : ∀ d ∈ sampleFs.globals.datastore, d.db = Dict.empty := by
  intro d hd
  rcases List.mem_cons.mp hd with rfl | hd
  · rfl
  · rcases List.mem_cons.mp hd with rfl | hd
    · rfl
    · cases hd

theorem tenSeconds_late {b : Block Bytes} (h : b.DELETION_TIME = some 0) :
    Late (fun _ => seconds 10) b := by
  unfold Late
  rw [h]
  have hlate : seconds 5 < seconds 10 - 0 := by decide
  exact fun _ => hlate

/-- The block of two removed files leaves its store. -/
theorem held_passes_iff_sample :
    let s := System.after (fun e s => FsStep.exec smallBlocksOnly .plain s e) sampleFs bothRemoved
    Held s.globals [7] ∧ ¬ Held (passes smallBlocksOnly [fun _ => seconds 10] s.globals) [7] := by
  intro s
  have hrun : (fileSystem smallBlocksOnly .plain).Run sampleFs bothRemoved s :=
    System.run_after (fun e s => FsStep.exec smallBlocksOnly .plain s e) bothRemoved sampleFs
  have hb : s.globals.hashTable.d.get? [7] = some ⟨[7], -1, -1, 1, 1, 1, false, true, some 0⟩ := by
    decide
  have hheld : Held s.globals [7] := ⟨_, .smallBlocks, hb, rfl, by decide⟩
  refine ⟨hheld, ?_⟩
  have hiff := held_passes_iff (List.cons_ne_nil _ _) sampleStores_numbered sampleStores_blank hrun
    hb hheld (tenSeconds_late rfl) []
  exact hiff.mpr ⟨by decide, rfl, by decide, by decide, by decide, by decide⟩

/-- One file is removed once its block is stored. -/
def oneRemoved : List (FsStep Bytes) :=
  [.create ⟨1, [97], 33188, 0, 0, 0, none⟩ 0, .write 2 0 [7] 0,
    .writerStep ⟨⟨fun _ => 0, fun _ => 0, false⟩, ⟨fun _ => 0, fun _ => 0, false⟩⟩, .remove 1 [97] 2 fun _ => 0]

/-- Its block stays in the store: one request takes the counter from one to zero. -/
theorem held_single : ¬ ∀ (cfg : Config) (s : Fs Bytes) (es : List (FsStep Bytes)) (h : Bytes)
    (b : Block Bytes) (clock : Nat → Time) (rest : List (Nat → Time)),
    (fileSystem cfg .plain).Run sampleFs es s → s.globals.hashTable.d.get? h = some b →
      Held s.globals h → s.refs h = 0 → Late clock b →
        ¬ Held (passes cfg (clock :: rest) s.globals) h := by
  intro hclaim
  let s := System.after (fun e s => FsStep.exec .shipped .plain s e) sampleFs oneRemoved
  have hrun : (fileSystem .shipped .plain).Run sampleFs oneRemoved s :=
    System.run_after (fun e s => FsStep.exec .shipped .plain s e) oneRemoved sampleFs
  have hb : s.globals.hashTable.d.get? [7] = some ⟨[7], 0, 0, 1, 1, 1, false, true, some 0⟩ := by
    decide
  have hafter : (passes .shipped [fun _ => seconds 10] s.globals).hashTable.d.get? [7] =
      some ⟨[7], 0, 0, 1, 1, 0, false, true, some 0⟩ := by decide
  refine hclaim .shipped s oneRemoved [7] _ (fun _ => seconds 10) [] hrun hb
    ⟨_, .datastore 0, hb, by decide, by decide⟩ (by decide)
    (tenSeconds_late rfl) ⟨_, .datastore 0, hafter, by decide, by decide⟩

end VeratyFS
