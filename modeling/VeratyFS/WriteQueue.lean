import VeratyFS.Reclaimed

/-!
# The write queue and failed commits

`dedup` enters a hash in the table when it queues the bytes; the writer takes them off the queue
before it tries to store them.

* `QueueInvariant` — the rule for invariants of the table's keys and the queue.
* `Queued` — every queued hash is in the table, and no two items have one hash.
* `failed_commit_forgotten` — after a commit that raises, the hash is in the table, nothing is queued
  for it, and `dedup` queues nothing for it again.
-/

set_option autoImplicit false
set_option maxRecDepth 1024

namespace VeratyFS

open Pylib

variable {H : Type} [DecidableEq H] {cfg : Config} {P : Packages H} {g g' : Globals H}

/-! ## The queue -/

/-- The table keeps its keys, and the queue has no new item. -/
structure Advances (g g' : Globals H) : Prop where
  keys : ∀ h, g.hashTable.contains h = true → g'.hashTable.contains h = true
  queue : g'.writeBuffer.d <:+ g.writeBuffer.d

theorem Advances.commit (g : Globals H) : Advances g { g with hashTable := g.hashTable.commit } :=
  ⟨fun _ => id, List.suffix_rfl⟩

/-- A hash without an entry gets one and is queued. -/
structure Enters (q : QueuedWrite H) (g g' : Globals H) : Prop where
  unknown : g.hashTable.contains q.hash = false
  known : g'.hashTable.contains q.hash = true
  keys : ∀ h, g.hashTable.contains h = true → g'.hashTable.contains h = true
  queue : g'.writeBuffer.d = g.writeBuffer.d ++ [q]

/-- What an invariant of the table's keys and the queue must survive. -/
structure QueueInvariant (I : Globals H → Prop) : Prop where
  advances : ∀ {g g'}, Advances g g' → I g → I g'
  enters : ∀ {q g g'}, Enters q g g' → I g → I g'

/-- **Rule**: such an invariant is kept by every step. -/
theorem QueueInvariant.preserved {I : Globals H → Prop} (hI : QueueInvariant I) (cfg : Config) :
    Preserved cfg fun g => I g ∧ Remembered g where
  caches hc hg := by
    refine ⟨hI.advances ⟨fun h => ?_, ?_⟩ hg.1, (remembered_preserved cfg).caches hc hg.2⟩
    · rw [hc.hashTable]
      exact id
    · exact ⟨[], congrArg WriteCache.d hc.writeBuffer⟩
  refers {h g g'} hr hg := by
    refine ⟨?_, (remembered_preserved cfg).refers hr hg.2⟩
    cases hr with
    | known b _ table queue _ =>
      exact hI.advances ⟨contains_of_table table, queue ▸ List.suffix_rfl⟩ hg.1
    | new q entry hash table queue _ =>
      subst hash
      exact hI.enters ⟨(Dict.contains_eq_false _).mpr entry,
        (contains_iff_get? _ _).mpr ⟨_, (table q.hash).trans (if_pos rfl)⟩, contains_of_table table,
        queue⟩ hg.1
  dropped hb hd hg := by
    refine ⟨hI.advances ⟨contains_of_table hd.table, ?_⟩ hg.1,
      (remembered_preserved cfg).dropped hb hd hg.2⟩
    exact ⟨[], congrArg WriteCache.d hd.writeBuffer⟩
  writer env {g} hg := by
    refine ⟨?_, (remembered_preserved cfg).writer env hg.2⟩
    cases writeNewBlock_effect cfg env g with
    | idle _ same => rw [same]; exact hg.1
    | lost q queue _ table _ =>
      exact hI.advances ⟨fun h => by rw [table]; exact id, ⟨[q], queue.symm⟩⟩ hg.1
    | installed q b queue _ table =>
      exact hI.advances ⟨contains_of_table table, ⟨[q], queue.symm⟩⟩ hg.1
  collect clock {g} hg := by
    refine garbageCollector_invariant cfg clock (I := fun g => I g ∧ Remembered g)
      (fun g hg h hh => (contains_iff_get? _ _).mp (hg.2.removeUses h hh))
      (fun g g' now h rest b hg hq hb hc => ⟨?_, hc.remembered hq hb hg.2⟩)
      (fun g hg => ⟨hI.advances (.commit g) hg.1, ⟨hg.2.removeUses, hg.2.reclaimed⟩⟩) hg
    refine hI.advances ⟨contains_of_table (g := g) hc.table, ?_⟩ hg.1
    exact ⟨[], congrArg WriteCache.d hc.writeBuffer⟩
  commit {g} hg := ⟨hI.advances (.commit g) hg.1, ⟨hg.2.removeUses, hg.2.reclaimed⟩⟩

structure Queued (g : Globals H) : Prop where
  known : ∀ q ∈ g.writeBuffer.d, g.hashTable.contains q.hash = true
  distinct : (g.writeBuffer.d.map QueuedWrite.hash).Nodup

theorem queued_invariant : QueueInvariant (H := H) Queued where
  advances ha hg :=
    ⟨fun q hq => ha.keys _ (hg.known q (ha.queue.subset hq)),
      hg.distinct.sublist (ha.queue.sublist.map _)⟩
  enters {q g g'} he hg := by
    refine ⟨fun x hx => ?_, ?_⟩
    · rw [he.queue] at hx
      rcases List.mem_append.mp hx with hx | hx
      · exact he.keys _ (hg.known x hx)
      · rw [List.mem_singleton.mp hx]
        exact he.known
    · rw [he.queue, List.map_append]
      refine hg.distinct.append (List.nodup_singleton _) fun k hk hk' => ?_
      -- a queued hash has an entry, and the new one had none
      obtain ⟨x, hx, rfl⟩ := List.mem_map.mp hk
      have hknown := hg.known x hx
      rw [List.mem_singleton.mp hk', he.unknown] at hknown
      cases hknown

theorem Queued.fresh {cacheSize : Nat} {hpos : 0 < cacheSize} {ds mds : List (DataStore H)} :
    Queued (Globals.fresh cacheSize hpos ds mds) :=
  ⟨fun _ hq => (by cases hq), List.nodup_nil⟩

theorem queued_run {cacheSize : Nat} {hpos : 0 < cacheSize} {ds mds : List (DataStore H)} {s : Fs H}
    {es : List (FsStep H)} (hrun : (fileSystem cfg P).Run (.fresh cacheSize hpos ds mds) es s) :
    Queued s.globals :=
  ((queued_invariant.preserved cfg).run hrun
    ⟨.fresh, fun _ hh => (by cases hh), fun _ hh => by cases hh⟩).1

/-! ## A commit that raises -/

section

variable {env : CommitEnv} {q : QueuedWrite H} {rest : WriteCache (QueuedWrite H)} {e : PyError}

/-- The block is off the queue, and its entry stays. -/
theorem Queued.lost (hg : Queued g) (hp : g.writeBuffer.popleft = some (q, rest))
    (hc : (commitBlock cfg env q { g with writeBuffer := rest }).1 = .error e) :
    (∀ x ∈ (writeNewBlock cfg env g).2.writeBuffer.d, x.hash ≠ q.hash) ∧
      (writeNewBlock cfg env g).2.hashTable.contains q.hash = true := by
  have hd := (WriteCache.popleft_eq_some hp).1
  have hrun : commitBlock cfg env q { g with writeBuffer := rest } =
      (.error e, (commitBlock cfg env q { g with writeBuffer := rest }).2) := Prod.ext hc rfl
  have hspec := commitBlock_spec cfg env q { g with writeBuffer := rest }
  rw [Py.wp_of_run hrun] at hspec
  rw [writeNewBlock_failed hp hrun]
  refine ⟨fun x hx hxq => ?_, ?_⟩
  · rw [hspec.writeBuffer] at hx
    have hdistinct := hg.distinct
    rw [hd, List.map_cons, List.nodup_cons] at hdistinct
    exact hdistinct.1 (List.mem_map.mpr ⟨x, hx, hxq⟩)
  · rw [hspec.hashTable]
    exact hg.known q (by rw [hd]; exact List.mem_cons_self)

end

/-- **A failed commit poisons dedup**: in every run, after a commit that raises, the block is not
queued, its hash is in the table, and no call of `dedup` queues the bytes again. -/
theorem failed_commit_forgotten {cacheSize : Nat} {hpos : 0 < cacheSize}
    {ds mds : List (DataStore H)} {s : Fs H} {es : List (FsStep H)}
    (hrun : (fileSystem cfg P).Run (.fresh cacheSize hpos ds mds) es s) {env : CommitEnv}
    {q : QueuedWrite H} {rest : WriteCache (QueuedWrite H)} {e : PyError}
    (hp : s.globals.writeBuffer.popleft = some (q, rest))
    (hc : (commitBlock cfg env q { s.globals with writeBuffer := rest }).1 = .error e) :
    let g' := ((FsStep.writerStep env).exec cfg P s).globals
    ¬ ((∃ x ∈ g'.writeBuffer.d, x.hash = q.hash) ∨ g'.hashTable.contains q.hash = false) ∧
      ∀ data, ∀ x ∈ queuedBy cfg P data g', x.hash ≠ q.hash := by
  intro g'
  obtain ⟨hqueue, hknown⟩ : (∀ x ∈ g'.writeBuffer.d, x.hash ≠ q.hash) ∧
      g'.hashTable.contains q.hash = true := (queued_run hrun).lost hp hc
  refine ⟨?_, fun data => queuedBy_known hknown⟩
  rintro (⟨x, hx, hxq⟩ | hno)
  · exact hqueue x hx hxq
  · rw [hknown] at hno
    cases hno

deriving instance DecidableEq for WriteCache

/-- One written block, and a measured size that leaves no store any room. -/
def oneWrite : List (FsStep Bytes) := [.create ⟨1, [97], 33188, 0, 0, 0, none⟩ 0, .write 2 0 [7] 0]

def noRoom : CommitEnv := ⟨⟨fun _ => 8589934592, fun _ => 0, false⟩, ⟨fun _ => 8589934592, fun _ => 0, false⟩⟩

theorem failed_commit_forgotten_sample :
    let s := System.after (fun e s => FsStep.exec .shipped .plain s e) sampleFs oneWrite
    let g' := ((FsStep.writerStep noRoom).exec .shipped .plain s).globals
    ¬ ((∃ x ∈ g'.writeBuffer.d, x.hash = [7]) ∨ g'.hashTable.contains [7] = false) ∧
      ∀ data, ∀ x ∈ queuedBy .shipped .plain data g', x.hash ≠ [7] := by
  intro s
  have hrun : (fileSystem .shipped .plain).Run sampleFs oneWrite s :=
    System.run_after (fun e s => FsStep.exec .shipped .plain s e) oneWrite sampleFs
  have hpop : s.globals.writeBuffer.popleft = some (⟨[7], [7], false, [7], 0, 0⟩, ⟨[], 30000⟩) := by
    decide
  have hfull : (commitBlock .shipped noRoom ⟨[7], [7], false, [7], 0, 0⟩
      { s.globals with writeBuffer := ⟨[], 30000⟩ }).1 = .error (.fuseError .ENOSPC) := by
    decide
  exact failed_commit_forgotten hrun hpop hfull

/-- The full stores refuse the block; it is not queued, and its hash is in the table. -/
theorem failed_commit_kept_hash : ¬ ∀ (cfg : Config) (s : Fs Bytes) (es : List (FsStep Bytes))
    (env : CommitEnv) (q : QueuedWrite Bytes) (rest : WriteCache (QueuedWrite Bytes)) (e : PyError),
      (fileSystem cfg .plain).Run sampleFs es s →
      s.globals.writeBuffer.popleft = some (q, rest) →
      (commitBlock cfg env q { s.globals with writeBuffer := rest }).1 = .error e →
      (∃ x ∈ ((FsStep.writerStep env).exec cfg .plain s).globals.writeBuffer.d, x.hash = q.hash) ∨
        ((FsStep.writerStep env).exec cfg .plain s).globals.hashTable.contains q.hash = false := by
  intro h
  have hrun := System.run_after (fun e s => FsStep.exec .shipped .plain s e) oneWrite sampleFs
  have hbad := h _ _ _ noRoom ⟨[7], [7], false, [7], 0, 0⟩ ⟨[], 30000⟩ (.fuseError .ENOSPC) hrun
    (by decide) (by decide)
  revert hbad
  decide

end VeratyFS
