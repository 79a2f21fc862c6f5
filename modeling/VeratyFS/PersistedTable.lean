import VeratyFS.DurableTable
import VeratyFS.ModuleState
import VeratyFS.OffsetCache

/-!
# What the commits write

Do the databases hold the entries after each `hash_table.commit()`?

* `TableStep`, `tableSteps` — the functions that use the table, one call after the other.
* `SetsOnly` — `dedup`, `update_index` and the writer change entries by assignment.
* `InPlace` — a round of the collector changes them in place, which only reaches a commit when the
  entry is pending.
* `persisted_equals_memory` — runs whose passes find every queued entry pending.
* `pass_unpersisted` — a round for an entry that is not pending.
-/

set_option autoImplicit false

namespace VeratyFS

open Pylib

variable {H : Type} [DecidableEq H] {cfg : Config} {P : Packages H} {g g' : Globals H}

/-- A call. -/
inductive TableStep (H : Type) where
  | dedup (data : Bytes)
  | addUse (idx : H)
  | removeUse (now : Time) (idx : H)
  | writerStep (env : CommitEnv)
  | collect (clock : Nat → Time)
  | commit

/-- The module state after a call, whether it returns or raises. -/
def TableStep.exec (cfg : Config) (P : Packages H) : TableStep H → Globals H → Globals H
  | .dedup data, g => (VeratyFS.dedup cfg P data g).2
  | .addUse idx, g => (updateIndexAdd idx g).2
  | .removeUse now idx, g => (updateIndexRemove cfg now idx g).2
  | .writerStep env, g => (writeNewBlock cfg env g).2
  | .collect clock, g => (garbageCollector cfg clock g).2
  | .commit, g => { g with hashTable := g.hashTable.commit }

def tableSteps (cfg : Config) (P : Packages H) : System (Globals H) (TableStep H) :=
  .ofFun (TableStep.exec cfg P)

/-- A call that commits the table: a pass does when it reaches its end. -/
def TableStep.commits (cfg : Config) (g : Globals H) : TableStep H → Prop
  | .commit => True
  | .collect clock => (garbageCollector cfg clock g).1 = .ok true
  | _ => False

/-- A pass finds every queued entry pending. -/
def TableStep.findsPending (g : Globals H) : TableStep H → Bool
  | .collect _ => g.removeUses.all fun h => !g.hashTable.contains h || g.hashTable.pending.contains h
  | _ => true

/-! ## Assignments -/

/-- Whatever is not pending is in the databases, if it was before. -/
def SetsOnly (g g' : Globals H) : Prop := g.hashTable.Written → g'.hashTable.Written

instance : Py.Frame (@SetsOnly H _) := ⟨fun _ => id, fun h h' => h' ∘ h⟩

theorem updateIndexAdd_setsOnly (idx : H) : Py.Keeps SetsOnly (updateIndexAdd idx) :=
  Py.keeps_bind Py.keeps_read fun _ => Py.keeps_bind (Py.keeps_ofOption _ _) fun _ =>
    Py.keeps_modify fun _ hw => hw.setItem _ _

theorem insertExtent_setsOnly (b : Block H) :
    Py.Keeps SetsOnly (Globals.onFreeBlocks (insertExtent b) : Task H Unit) :=
  Py.keeps_zoom (S := fun _ _ => True) (fun _ => trivial) fun _ _ _ hw => hw

theorem appendExtent_setsOnly (b : Block H) :
    Py.Keeps SetsOnly (Globals.onFreeBlocks (appendExtent b) : Task H Unit) :=
  Py.keeps_zoom (S := fun _ _ => True) (fun _ => trivial) fun _ _ _ hw => hw

theorem updateIndexRemove_setsOnly (cfg : Config) (now : Time) (idx : H) :
    Py.Keeps SetsOnly (updateIndexRemove cfg now idx) := by
  refine Py.keeps_attempt (Py.keeps_bind Py.keeps_read fun g => ?_) fun e => Py.keeps_raise _
  split
  · refine Py.keeps_bind (Py.keeps_ofOption _ _) fun h => ?_
    split
    · refine Py.keeps_bind ?_ fun _ => Py.keeps_bind ?_ fun _ => ?_
      · split
        · exact appendExtent_setsOnly h
        · exact insertExtent_setsOnly h
      · exact Py.keeps_modify fun g hw => hw.setItem idx _
      · refine Py.keeps_modify fun g hw => ?_
        unfold uncache
        split <;> exact hw
    · exact Py.keeps_modify fun g hw => hw.setItem idx _
  · exact Py.keeps_pure _

theorem dedupChunk_setsOnly (P : Packages H) (compress : Bytes → Bool × Bytes) (c : Bytes) :
    Py.Keeps SetsOnly (dedupChunk P compress c) := by
  refine Py.keeps_bind Py.keeps_read fun g => ?_
  split
  · refine Py.keeps_bind (Py.keeps_modify fun g hw => hw) fun _ => ?_
    exact Py.keeps_bind (updateIndexAdd_setsOnly _) fun _ => Py.keeps_pure _
  · refine Py.keeps_bind (Py.keeps_modify fun g hw => ?_) fun _ => Py.keeps_pure _
    exact hw.setItem _ _

theorem dedup_setsOnly (cfg : Config) (P : Packages H) (data : Bytes) :
    Py.Keeps SetsOnly (dedup cfg P data) := by
  unfold dedup
  generalize (dedupPieces cfg P data).2 = compress
  induction (dedupPieces cfg P data).1 with
  | nil => exact Py.keeps_pure _
  | cons c cs ih =>
    refine Py.keeps_bind (dedupChunk_setsOnly P compress c) fun b => ?_
    exact Py.keeps_bind ih fun _ => Py.keeps_pure _

theorem commitBlock_setsOnly (cfg : Config) (env : CommitEnv) (q : QueuedWrite H) :
    Py.Keeps SetsOnly (commitBlock cfg env q) := by
  intro g hw
  have hspec := commitBlock_spec cfg env q g
  have hstores : StoresOnly g (commitBlock cfg env q g).2 := by
    unfold Py.wp at hspec
    cases hr : (commitBlock cfg env q g).1 with
    | error e =>
      rw [hr] at hspec
      exact hspec
    | ok q' =>
      rw [hr] at hspec
      exact hspec.1
  rw [hstores.hashTable]
  exact hw

theorem installBlock_setsOnly (cfg : Config) (q : QueuedWrite H) :
    Py.Keeps SetsOnly (installBlock cfg q) := by
  refine Py.keeps_bind (Py.keeps_modify fun g hw => hw.setItem _ _) fun _ => ?_
  refine Py.keeps_bind (updateIndexAdd_setsOnly q.hash) fun _ => ?_
  split
  · exact Py.keeps_modify fun g hw => hw
  · exact Py.keeps_pure _

theorem writeNewBlock_setsOnly (cfg : Config) (env : CommitEnv) :
    Py.Keeps SetsOnly (writeNewBlock cfg env : Task H Unit) := by
  refine Py.keeps_bind Py.keeps_read fun g => ?_
  split
  · exact Py.keeps_pure _
  · refine Py.keeps_bind (Py.keeps_modify fun g hw => hw) fun _ => Py.keeps_attempt ?_ fun e => ?_
    · exact Py.keeps_bind (commitBlock_setsOnly cfg env _) fun q => installBlock_setsOnly cfg q
    · split
      · exact Py.keeps_raise _
      · exact Py.keeps_ret _

/-! ## Changes in place -/

/-- The same keys are in the table and pending, and a pending entry that changes is still what the
next commit writes. -/
structure InPlace (h : H) (g g' : Globals H) : Prop where
  written : g.hashTable.pending.contains h = true → g.hashTable.Written → g'.hashTable.Written
  ht : g'.hashTable.ht = g.hashTable.ht
  pending : ∀ k, g'.hashTable.pending.contains k = g.hashTable.pending.contains k
  keys : ∀ k, g'.hashTable.contains k = g.hashTable.contains k
  removeUses : g'.removeUses = g.removeUses

instance (h : H) : Py.Frame (InPlace (H := H) h) := by
  refine ⟨fun g => ⟨fun _ => id, rfl, fun _ => rfl, fun _ => rfl, rfl⟩, fun h₁ h₂ => ?_⟩
  refine ⟨fun hp hw => ?_, h₂.ht.trans h₁.ht, fun k => ?_, fun k => ?_,
    h₂.removeUses.trans h₁.removeUses⟩
  · exact h₂.written ((h₁.pending h).trans hp) (h₁.written hp hw)
  · exact (h₂.pending k).trans (h₁.pending k)
  · exact (h₂.keys k).trans (h₁.keys k)

theorem contains_modify (d : Dict H (Block H)) (h k : H) (f : Block H → Block H) :
    (d.modify h f).contains k = d.contains k := by
  unfold Dict.contains
  rw [Dict.get?_modify]
  split
  · simp
  · rfl

/-- **An entry that is pending can be changed in place.** -/
theorem HashTable.Written.mutate {t : HashTable H} (ht : t.Written) {h : H}
    (hp : t.pending.contains h = true) (f : Block H → Block H) : (t.mutate h f).Written := by
  have hd : ∀ x, (t.mutate h f).d.get? x = if h = x then (t.d.get? x).map f else t.d.get? x :=
    fun x => t.d.get?_modify h x f
  have hpending : ∀ x, (t.mutate h f).pending.get? x =
      if h = x then (t.pending.get? x).map f else t.pending.get? x :=
    fun x => t.pending.get?_modify h x f
  exact ⟨ht.ht.modify hp hd hpending, fun hr => (ht.mirror hr).modify hp hd hpending⟩

theorem mutateEntry_inPlace (h : H) (f : Block H → Block H) :
    Py.Keeps (InPlace h) (mutateEntry h f) := by
  refine Py.keeps_modify fun g => ⟨fun hp hw => hw.mutate hp f, rfl, fun k => ?_, fun k => ?_, rfl⟩
  · exact contains_modify _ h k f
  · exact contains_modify _ h k f

theorem deleteBlock_inPlace (cfg : Config) (h : H) (b : Block H) :
    Py.Keeps (InPlace h) (deleteBlock cfg h b) := by
  intro g
  have hdel := deleteBlock_effect cfg h b g
  refine ⟨fun _ hw => ?_, ?_, fun k => ?_, fun k => ?_, hdel.removeUses⟩
  · rw [hdel.hashTable]
    exact hw
  · rw [hdel.hashTable]
  · rw [hdel.hashTable]
  · rw [hdel.hashTable]

/-- **A round changes its entry in place.** -/
theorem collectHash_inPlace (cfg : Config) (now : Time) (h : H) :
    Py.Keeps (InPlace h) (collectHash cfg now h) := by
  refine Py.keeps_bind Py.keeps_read fun g => Py.keeps_bind (Py.keeps_ofOption _ _) fun b => ?_
  refine Py.keeps_bind (mutateEntry_inPlace h _) fun _ => ?_
  split
  · refine Py.keeps_bind (mutateEntry_inPlace h _) fun _ => ?_
    split
    · exact deleteBlock_inPlace cfg h b
    · split
      · exact mutateEntry_inPlace h _
      · exact Py.keeps_pure _
  · exact Py.keeps_pure _

/-- Every queued entry is pending, and what is not pending is in the databases. -/
structure ReadyToCollect (g : Globals H) : Prop where
  written : g.hashTable.Written
  pending : ∀ h ∈ g.removeUses,
    g.hashTable.contains h = true → g.hashTable.pending.contains h = true

theorem ReadyToCollect.of_findsPending {clock : Nat → Time} (hg : g.hashTable.Written)
    (he : (TableStep.collect clock).findsPending g = true) : ReadyToCollect g := by
  refine ⟨hg, fun h hh hc => ?_⟩
  have hall := List.all_eq_true.mp he h hh
  simpa [hc] using hall

/-- A round for a hash without an entry ends the pass as it was. -/
theorem ReadyToCollect.round {now : Time} {h : H} {rest : List H} (hg : ReadyToCollect g)
    (hq : g.removeUses = h :: rest) :
    ReadyToCollect (collectHash cfg now h { g with removeUses := rest }).2 := by
  have hrest : ∀ k ∈ rest, g.hashTable.contains k = true →
      g.hashTable.pending.contains k = true := by
    intro k hk
    exact hg.pending k (by rw [hq]; exact List.mem_cons_of_mem _ hk)
  by_cases hc : g.hashTable.contains h = true
  · have hp := hg.pending h (by rw [hq]; exact List.mem_cons_self) hc
    have hin := collectHash_inPlace cfg now h { g with removeUses := rest }
    refine ⟨hin.written hp hg.written, fun k hk hkc => ?_⟩
    rw [hin.removeUses] at hk
    rw [hin.keys] at hkc
    rw [hin.pending]
    exact hrest k hk hkc
  · have hnone : g.hashTable.getItem? h = none := by
      rw [hg.written.getItem?]
      exact (Dict.contains_eq_false _).mp (Bool.not_eq_true _ ▸ hc)
    rw [collectHash_unknown (g := { g with removeUses := rest }) hnone]
    exact ⟨hg.written, hrest⟩

theorem ReadyToCollect.loop {clock : Nat → Time} (n : Nat) (hg : ReadyToCollect g) :
    ReadyToCollect (collectLoop cfg clock n g).2 := by
  induction n generalizing g with
  | zero => exact hg
  | succ n ih =>
    cases hq : g.removeUses with
    | nil =>
      rw [collectLoop_empty cfg clock (n + 1) hq]
      exact hg
    | cons h rest =>
      have hround : ReadyToCollect (collectHash cfg (clock n) h { g with removeUses := rest }).2 :=
        hg.round hq
      rw [collectLoop_next cfg clock n hq]
      cases hr : collectHash cfg (clock n) h { g with removeUses := rest } with
      | mk r g₁ =>
        rw [hr] at hround
        cases r with
        | error e =>
          rw [Py.run_bind_error hr]
          exact hround
        | ok _ =>
          rw [Py.run_bind_ok hr]
          exact ih hround

/-- **A pass that finds every queued entry pending**, whether it reaches its commit or not. -/
theorem ReadyToCollect.pass {clock : Nat → Time} (hg : ReadyToCollect g) :
    (garbageCollector cfg clock g).2.hashTable.Written ∧
      ((garbageCollector cfg clock g).1 = .ok true →
        (garbageCollector cfg clock g).2.hashTable.Persisted) := by
  have hloop : (collectLoop cfg clock g.removeUses.length g).2.hashTable.Written :=
    (hg.loop g.removeUses.length).written
  rcases garbageCollector_cases cfg clock g with ⟨g₁, rfl, heq⟩ | ⟨e, heq⟩
  · rw [heq]
    exact ⟨hloop.commit, fun _ => hloop.persisted⟩
  · rw [heq]
    exact ⟨hloop, fun hr => by cases hr⟩

/-! ## Entries that are not pending -/

/-- The record of an entry has more uses than the entry, or the entry is about to lose one. -/
structure Behind (h : H) (g : Globals H) : Prop where
  pending : g.hashTable.pending.contains h = false
  uses : ∃ b r, g.hashTable.d.get? h = some b ∧ g.hashTable.ht.get? h = some r ∧
    (b.uses < r.uses ∨ b.uses = r.uses ∧ h ∈ g.removeUses)
  known : ∀ k, g.hashTable.pending.contains k = true → g.hashTable.contains k = true

theorem Behind.round {h k : H} {rest : List H} {now : Time} (hg : Behind h g)
    (hq : g.removeUses = k :: rest) :
    Behind h (collectHash cfg now k { g with removeUses := rest }).2 := by
  have hin := collectHash_inPlace cfg now k { g with removeUses := rest }
  obtain ⟨b, r, hb, hr, huses⟩ := hg.uses
  refine ⟨(hin.pending h).trans hg.pending, ?_, fun x hx => ?_⟩
  · have hqueue : k ≠ h → h ∈ g.removeUses → h ∈ rest := by
      intro hne hmem
      rw [hq] at hmem
      rcases List.mem_cons.mp hmem with e | hmem
      · exact absurd e.symm hne
      · exact hmem
    cases hk : g.hashTable.d.get? k with
    | none =>
      have hne : k ≠ h := fun e => by
        rw [e, hb] at hk
        cases hk
      have hnone : g.hashTable.getItem? k = none := by
        unfold HashTable.getItem?
        rw [hk]
        refine Option.not_isSome_iff_eq_none.mp fun hsome => ?_
        obtain ⟨b', hb'⟩ := (contains_iff_get? _ _).mp (hg.known k hsome)
        rw [hk] at hb'
        cases hb'
      rw [collectHash_unknown (g := { g with removeUses := rest }) hnone]
      exact ⟨b, r, hb, hr, huses.imp_right (And.imp_right (hqueue hne))⟩
    | some bk =>
      have hc := collectHash_effect cfg now (g := { g with removeUses := rest }) hk
      rw [hc.table, hin.ht, hc.removeUses]
      by_cases hkh : k = h
      · subst hkh
        rw [hk] at hb
        cases hb
        refine ⟨_, r, if_pos rfl, hr, .inl ?_⟩
        show b.uses - 1 < r.uses
        omega
      · exact ⟨b, r, (if_neg hkh).trans hb, hr, huses.imp_right (And.imp_right (hqueue hkh))⟩
  · rw [hin.keys]
    exact hg.known x ((hin.pending x).symm.trans hx)

theorem Behind.loop {h : H} {clock : Nat → Time} (n : Nat) (hg : Behind h g) :
    Behind h (collectLoop cfg clock n g).2 := by
  induction n generalizing g with
  | zero => exact hg
  | succ n ih =>
    cases hq : g.removeUses with
    | nil =>
      rw [collectLoop_empty cfg clock (n + 1) hq]
      exact hg
    | cons k rest =>
      have hround : Behind h (collectHash cfg (clock n) k { g with removeUses := rest }).2 :=
        hg.round hq
      rw [collectLoop_next cfg clock n hq]
      cases hr : collectHash cfg (clock n) k { g with removeUses := rest } with
      | mk r g₁ =>
        rw [hr] at hround
        cases r with
        | error e =>
          rw [Py.run_bind_error hr]
          exact hround
        | ok _ =>
          rw [Py.run_bind_ok hr]
          exact ih hround

/-- **A queued entry that is not pending loses a use that no commit writes**, in every pass that
empties the queue. -/
theorem pass_unpersisted {h : H} {clock : Nat → Time} (hg : g.hashTable.Written)
    (hq : h ∈ g.removeUses) (hc : g.hashTable.contains h = true)
    (hp : g.hashTable.pending.contains h = false)
    (hend : (garbageCollector cfg clock g).2.removeUses = []) :
    ¬ (garbageCollector cfg clock g).2.hashTable.Persisted := by
  obtain ⟨b, hb⟩ := (contains_iff_get? _ _).mp hc
  have hnone : g.hashTable.pending.get? h = none :=
    (Dict.contains_eq_false _).mp hp
  have hstored : g.hashTable.ht.get? h = some b := by
    have hov := hg.ht h
    rw [hnone, hb] at hov
    exact hov.symm
  have hknown : ∀ k, g.hashTable.pending.contains k = true → g.hashTable.contains k = true := by
    intro k hk
    obtain ⟨b', hb'⟩ := (Dict.contains_iff _).mp hk
    refine (contains_iff_get? _ _).mpr ⟨b', ?_⟩
    rw [hg.ht k, hb']
    rfl
  have hloop : Behind h (collectLoop cfg clock g.removeUses.length g).2 :=
    Behind.loop _ ⟨hp, ⟨b, b, hb, hstored, .inr ⟨rfl, hq⟩⟩, hknown⟩
  intro hpersisted
  have hsame := hpersisted.ht h
  obtain ⟨b', r, hb', hr, huses⟩ := hloop.uses
  have hlt : (collectLoop cfg clock g.removeUses.length g).2.removeUses = [] → b'.uses < r.uses := by
    intro hempty
    rcases huses with hlt | ⟨_, hmem⟩
    · exact hlt
    · rw [hempty] at hmem
      cases hmem
  rcases garbageCollector_cases cfg clock g with ⟨g₁, rfl, heq⟩ | ⟨e, heq⟩
  · rw [heq] at hsame hend
    have hlt := hlt hend
    have hunwritten := (Dict.contains_eq_false _).mp hloop.pending
    rw [HashTable.commit_ht_get?, hunwritten] at hsame
    have hrb : some r = some b' := hr.symm.trans (hsame.trans hb')
    cases hrb
    omega
  · rw [heq] at hsame hend
    have hlt := hlt hend
    have hrb : some r = some b' := hr.symm.trans (hsame.trans hb')
    cases hrb
    omega

/-! ## Runs -/

/-- **Every call keeps the databases up with the entries that are not pending.** -/
theorem TableStep.written {e : TableStep H} (hg : g.hashTable.Written)
    (he : e.findsPending g = true) : (e.exec cfg P g).hashTable.Written := by
  cases e with
  | dedup data => exact dedup_setsOnly cfg P data g hg
  | addUse idx => exact updateIndexAdd_setsOnly idx g hg
  | removeUse now idx => exact updateIndexRemove_setsOnly cfg now idx g hg
  | writerStep env => exact writeNewBlock_setsOnly cfg env g hg
  | commit => exact hg.commit
  | collect clock => exact (ReadyToCollect.of_findsPending hg he).pass.1

/-- **After every commit the databases hold the entries**, in every run whose passes find every queued
entry pending. -/
theorem persisted_equals_memory {g g₁ g₂ : Globals H} {es : List (TableStep H)} {e : TableStep H}
    (hload : g.hashTable.Loaded)
    (hrun : ((tableSteps cfg P).meeting fun g e => e.findsPending g = true).Run g es g₁)
    (hstep : ((tableSteps cfg P).meeting fun g e => e.findsPending g = true).step g₁ e g₂)
    (hcommit : e.commits cfg g₁) : g₂.hashTable.Persisted := by
  have hw : g₁.hashTable.Written := by
    refine hrun.invariant (I := fun g => g.hashTable.Written) ?_ hload.written
    rintro g e _ hg ⟨rfl, he⟩
    exact TableStep.written hg he
  obtain ⟨rfl, he⟩ := hstep
  cases e with
  | commit => exact hw.persisted
  | collect clock => exact (ReadyToCollect.of_findsPending hw he).pass.2 hcommit
  | dedup data => exact absurd hcommit id
  | addUse idx => exact absurd hcommit id
  | removeUse now idx => exact absurd hcommit id
  | writerStep env => exact absurd hcommit id

/-- One block: stored, referenced again, and a reference taken back while the removal is pending. -/
def pendingSteps : List (TableStep Bytes) :=
  [.dedup [7], .writerStep ⟨⟨fun _ => 0, fun _ => 0, false⟩, ⟨fun _ => 0, fun _ => 0, false⟩⟩, .commit,
    .dedup [7], .removeUse 0 [7]]

theorem persisted_equals_memory_sample :
    (System.after (TableStep.exec .shipped .plain) sampleFs.globals
      (pendingSteps ++ [.collect fun _ => 0])).hashTable.Persisted := by
  have hrun := System.run_meeting_after (TableStep.exec .shipped .plain)
    (fun g e => e.findsPending g) pendingSteps sampleFs.globals (by decide)
  exact persisted_equals_memory ⟨rfl, fun _ => rfl, fun _ _ => rfl⟩ hrun
    (e := .collect fun _ => 0) ⟨rfl, by decide⟩ (by
      unfold TableStep.commits
      decide)

/-- The reference is taken back after the removal was committed. -/
def committedSteps : List (TableStep Bytes) := pendingSteps ++ [.commit]

/-- The record keeps the reference that the pass took back. -/
theorem commit_unpersisted : ¬ ∀ (cfg : Config) (g g₁ g₂ : Globals Bytes)
    (es : List (TableStep Bytes)) (e : TableStep Bytes), g.hashTable.Loaded →
    (tableSteps cfg .plain).Run g es g₁ → (tableSteps cfg .plain).step g₁ e g₂ →
      e.commits cfg g₁ → g₂.hashTable.Persisted := by
  intro h
  have hrun := System.run_after (TableStep.exec .shipped .plain) committedSteps sampleFs.globals
  have hp := h .shipped _ _ _ committedSteps (.collect fun _ => 0)
    ⟨rfl, fun _ => rfl, fun _ _ => rfl⟩ hrun rfl (by
      unfold TableStep.commits
      decide)
  have huses := congrArg (Option.map Block.uses) (hp.ht [7])
  revert huses
  decide

end VeratyFS
