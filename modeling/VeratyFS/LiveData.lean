import VeratyFS.Accounting
import VeratyFS.OffsetCache

/-!
# The collector and live data

The collector deletes a hash when its counter falls below zero.  A counter bounds the references
(`Account.Covered`) until the writer installs an entry: the entry starts at one use, however many
references the placeholder had collected.

* `deletedBy` — the hashes whose deletion branch runs in a pass.
* `deletedBy_unreferenced` — in every run whose installs find at most two references and requests,
  a pass deletes only hashes that no inode refers to.
* `deletedBy_shared` — three files with one block: two are removed, and the block of the third is
  deleted.
-/

set_option autoImplicit false
set_option maxRecDepth 1024

namespace VeratyFS

open Pylib Refcount

variable {H : Type} [DecidableEq H] {cfg : Config} {P : Packages H}

/-- The hashes whose deletion branch runs in a pass. -/
def deletedBy (cfg : Config) (clock : Nat → Time) (g : Globals H) : List H :=
  (garbageCollector cfg clock g).2.reclaimed.drop g.reclaimed.length

/-- **A pass over counters that bound the references deletes only unreferenced hashes.** -/
theorem deletedBy_covered {s : Fs H} (hs : Sound s) (hcov : ∀ h, (s.account h).Covered)
    (clock : Nat → Time) {h : H} (hdel : h ∈ deletedBy cfg clock s.globals) : s.refs h = 0 := by
  have hpass := garbageCollector_invariant cfg clock
    (I := fun g => (∃ l, g.reclaimed = s.globals.reclaimed ++ l ∧ ∀ h ∈ l, s.refs h = 0) ∧
      (∀ h, (g.account h (s.refs h) 0).Closed ∧ (g.account h (s.refs h) 0).Covered) ∧
      ∀ k ∈ g.removeUses, ∃ b, g.hashTable.d.get? k = some b)
    (fun g hI => hI.2.2)
    (fun g g' now k rest b hI hq hb hc => by
      obtain ⟨⟨l, hl, hzero⟩, hacc, hknown⟩ := hI
      refine ⟨⟨l ++ if due now b then [k] else [], ?_, ?_⟩, fun x => ?_,
        fun x hx => ?_⟩
      · rw [hc.reclaimed, hl, List.append_assoc]
      · intro x hx
        rcases List.mem_append.mp hx with hx | hx
        · exact hzero x hx
        · split at hx
          · rename_i hneg
            rw [List.mem_singleton] at hx
            subst hx
            refine (hacc x).2.collect_refs (account_known hb _ _) ?_ hneg.1
            change 0 < g.removeUses.count x
            rw [hq, List.count_cons_self]
            omega
          · cases hx
      · have hreach := hc.account (D := fun _ op => op ≠ .install)
          ⟨fun _ _ h => (by cases h), fun _ h => (by cases h), fun _ h => (by cases h),
            fun _ h => (by cases h)⟩ hq hb x (s.refs x) 0
        refine hreach.invariant (I := fun a => a.Closed ∧ a.Covered) ?_ (hacc x)
        rintro a op a' ⟨hclosed, hcovered⟩ ⟨happly, hop⟩
        exact ⟨hclosed.apply happly, hcovered.apply hclosed happly fun h => absurd h hop⟩
      · rw [hc.removeUses] at hx
        obtain ⟨b', hb'⟩ := hknown x (by rw [hq]; exact List.mem_cons_of_mem _ hx)
        rw [hc.table]
        split
        · exact ⟨_, rfl⟩
        · exact ⟨b', hb'⟩)
    (fun g hI => hI) (g := s.globals)
    ⟨⟨[], (List.append_nil _).symm, fun _ hx => (by cases hx)⟩,
      fun h => ⟨hs.closed h, hcov h⟩, fun k hk => hs.known_of_owed hk⟩
  obtain ⟨⟨l, hl, hzero⟩, _⟩ := hpass
  unfold deletedBy at hdel
  rw [hl, List.drop_left] at hdel
  exact hzero h hdel

/-! ## When counters bound the references -/

/-- The entry that the writer installs, if its commit succeeds, has at most two references and
    requests. -/
def installCovered (cfg : Config) (env : CommitEnv) (s : Fs H) : Bool :=
  match s.globals.writeBuffer.d.head? with
  | none => true
  | some q => !commitsHead cfg env s.globals ||
    decide (s.refs q.hash + s.globals.removeUses.count q.hash ≤ 2)

/-- A step that keeps the counters above the references: numbers that fit, and installs within the
    bound. -/
def FsStep.covers (cfg : Config) (s : Fs H) (e : FsStep H) : Bool :=
  e.wellFormed s &&
    match e with
    | .writerStep env => installCovered cfg env s
    | _ => true

/-- An install within the bound. -/
def Covering (a : Account) (op : Posting) : Prop := op = .install → a.refs + a.debt + a.owed ≤ 2

theorem covering_policy : Policy Covering :=
  ⟨fun _ _ h => (by cases h), fun _ h => (by cases h), fun _ h => (by cases h), fun _ h => (by cases h)⟩

theorem installCovered_allowed {s : Fs H} {env : CommitEnv} (h : installCovered cfg env s = true)
    (k : H) : WriterAllowed Covering cfg env s k := by
  intro q hq hk
  unfold installCovered at h
  rw [Option.mem_def.mp hq] at h
  dsimp only at h
  split
  · rename_i hc
    rw [hc, Bool.not_true, Bool.false_or, hk] at h
    intro _
    exact of_decide_eq_true h
  · exact fun h => by cases h

/-- **Covered in every state of a run of covering steps.** -/
theorem covered_run {s s' : Fs H} {es : List (FsStep H)}
    (hrun : ((fileSystem cfg P).meeting fun s e => e.covers cfg s = true).Run s es s')
    (hs : Sound s) (h₀ : ∀ h, (s.account h).Covered) : Sound s' ∧ ∀ h, (s'.account h).Covered := by
  refine accounts_run covering_policy (I := Account.Covered) ?_ ?_ hrun hs h₀
  · exact fun a a' op hclosed hcov happly hop => hcov.apply hclosed happly hop
  · intro s e he
    obtain ⟨hwf, hw⟩ := Bool.and_eq_true_iff.mp he
    refine ⟨hwf, fun h => admits_of_writer (fun a op hop _ h => absurd h hop) fun env he => ?_⟩
    subst he
    exact installCovered_allowed hw h

theorem truncating_covers (s : Fs H) (e : FsStep H) (h : e.truncating s) :
    e.covers cfg s = true := by
  refine Bool.and_eq_true_iff.mpr ⟨truncating_wellFormed s e h, ?_⟩
  cases e with
  | writerStep env => exact h.elim
  | _ => rfl

section

variable {cacheSize : Nat} {hpos : 0 < cacheSize} {ds mds : List (DataStore H)}

/-- **Garbage collection never deletes live data**, in every run of calls, writer steps and passes
whose installs find at most two references and requests. -/
theorem deletedBy_unreferenced (hne : ds ≠ []) (hnum : Numbered ds) {s : Fs H}
    {es : List (OpStep H)}
    (hrun : ((operations cfg P).meeting fun s e => e.requires (FsStep.covers cfg) s = true).Run
      (.fresh cacheSize hpos ds mds) es s) (clock : Nat → Time) :
    ∀ h ∈ deletedBy cfg clock s.globals,
      ∀ fh f, s.inodes.d.get? fh = some f → ∀ b ∈ f.data, b.hash ≠ h := by
  obtain ⟨es', hrun'⟩ := operations_run truncating_covers hrun
  obtain ⟨hs, hcov⟩ := covered_run hrun' (.fresh hne hnum) fun h u hu => by cases hu
  exact fun h hdel => refs_eq_zero.mp (deletedBy_covered hs hcov clock hdel)

end

/-- The shipped configuration with one path for the small blocks. -/
def onePath : Config := { Config.shipped with smallBlockDbPath := .path }

def newFile (name : Bytes) : OpStep Bytes := .create ⟨1, name, 33188, 0, 0, 0, none⟩ 0

def writerTurn : OpStep Bytes := .writerStep ⟨⟨fun _ => 0, fun _ => 0, false⟩, ⟨fun _ => 0, fun _ => 0, false⟩⟩

/-- Two files with one block; both are removed once it is stored. -/
def coveredSteps : List (OpStep Bytes) :=
  [newFile [97], newFile [98], .write 2 0 [7] 0, .write 3 0 [7] 0, writerTurn,
    .remove 1 [97] 2 fun _ => 0, .remove 1 [98] 3 fun _ => 0]

/-- The pass ten seconds later deletes the block, and no file has it. -/
theorem deletedBy_unreferenced_sample :
    let s := System.after (fun e s => OpStep.exec onePath .plain s e) sampleFs coveredSteps
    deletedBy onePath (fun _ => seconds 10) s.globals = [[7]] ∧
    ∀ h ∈ deletedBy onePath (fun _ => seconds 10) s.globals,
      ∀ fh f, s.inodes.d.get? fh = some f → ∀ b ∈ f.data, b.hash ≠ h := by
  refine ⟨by decide, ?_⟩
  have hrun := System.run_meeting_after (fun e s => OpStep.exec onePath .plain s e)
    (OpStep.requires (FsStep.covers onePath)) coveredSteps sampleFs (by decide)
  exact deletedBy_unreferenced (List.cons_ne_nil _ _) sampleStores_numbered hrun _

/-- Three files with one block, of which two are removed. -/
def sharedSteps : List (OpStep Bytes) :=
  [newFile [97], newFile [98], newFile [99], .write 2 0 [7] 0, .write 3 0 [7] 0, .write 4 0 [7] 0,
    writerTurn, .remove 1 [97] 2 fun _ => 0, .remove 1 [98] 3 fun _ => 0]

/-- The pass ten seconds later deletes the block of the third file. -/
theorem deletedBy_shared : ¬ ∀ (cfg : Config) (s : Fs Bytes) (es : List (OpStep Bytes))
    (clock : Nat → Time), (operations cfg .plain).Run sampleFs es s →
      ∀ h ∈ deletedBy cfg clock s.globals,
        ∀ fh f, s.inodes.d.get? fh = some f → ∀ b ∈ f.data, b.hash ≠ h := by
  intro h
  have hrun := System.run_after (fun e s => OpStep.exec onePath .plain s e) sharedSteps sampleFs
  have hdel : deletedBy onePath (fun _ => seconds 10) (System.after
      (fun e s => OpStep.exec onePath .plain s e) sampleFs sharedSteps).globals = [[7]] := by
    decide
  have hlive : ((System.after (fun e s => OpStep.exec onePath .plain s e) sampleFs
      sharedSteps).inodes.d.get? 4).map FileInode.data = some [⟨[7], 1, 1⟩] := by decide
  obtain ⟨f, hf, hdata⟩ := Option.map_eq_some_iff.mp hlive
  exact h onePath _ _ (fun _ => seconds 10) hrun [7] (by rw [hdel]; exact List.mem_cons_self) 4 f hf
    ⟨[7], 1, 1⟩ (by rw [hdata]; exact List.mem_cons_self) rfl

end VeratyFS
