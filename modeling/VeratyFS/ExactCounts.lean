import VeratyFS.LiveData

/-!
# Exact counts

In a quiescent state nothing waits to be stored and no removal waits to be collected.  The counters
are exact there (`Account.Balanced`) unless a count was lost on the way: the writer resets a counter
that duplicates had raised, a commit fails, or the mid-file branch of `write` drops blocks without
telling the collector.

* `dropsBlocks`, `installExact`, `FsStep.counts` — the steps that lose no count.
* `uses_exact` — in every quiescent state of a run of such steps, `uses` is the number of references.
* `uses_reset` — two files get one block before the writer stores it, and its counter ends at 1.
-/

set_option autoImplicit false
set_option maxRecDepth 1024

namespace VeratyFS

open Pylib Refcount

variable {H : Type} [DecidableEq H] {cfg : Config} {P : Packages H}

/-- Nothing waits to be stored, and no removal waits to be collected. -/
def Quiescent {H : Type} (s : Fs H) : Prop := s.globals.writeBuffer.d = [] ∧ s.globals.removeUses = []

theorem Quiescent.uses_eq {s : Fs H} (hq : Quiescent s) {h : H} (hbal : (s.account h).Balanced)
    {b : Block H} (hb : s.globals.hashTable.d.get? h = some b) : b.uses = s.refs h := by
  have := hbal b.uses (account_known hb _ _)
  obtain ⟨hbuf, hrem⟩ := hq
  unfold Fs.account Globals.account at this
  rw [hbuf, hrem] at this
  simpa using this

/-! ## Steps that lose no count -/

/-- The write takes the mid-file branch, reads its range, and pops blocks of the file. -/
def dropsBlocks (cfg : Config) (P : Packages H) (s : Fs H) (fh offset : Nat) (buf : Bytes) : Bool :=
  match s.inodes.d.get? fh with
  | none => false
  | some f =>
    if inMiddle f offset buf.length then
      match (retrieveData cfg P fh offset buf.length true s).1 with
      | .ok (.whole _ sb eb _) => decide (popBlocks f.data sb (eb + 1 - sb).toNat ≠ f.data)
      | _ => false
    else false

/-- The writer's commit succeeds, and the placeholder of its block counts no duplicate. -/
def installExact (cfg : Config) (env : CommitEnv) (s : Fs H) : Bool :=
  match s.globals.writeBuffer.d.head? with
  | none => true
  | some q => commitsHead cfg env s.globals &&
    decide ((s.globals.hashTable.d.get? q.hash).map Block.uses = some 0)

def FsStep.counts (cfg : Config) (P : Packages H) (s : Fs H) (e : FsStep H) : Bool :=
  e.wellFormed s &&
    match e with
    | .write fh offset buf _ => !dropsBlocks cfg P s fh offset buf
    | .writerStep env => installExact cfg env s
    | _ => true

/-- The postings that lose no count. -/
def Counting (a : Account) (op : Posting) : Prop :=
  op ≠ .forget ∧ op ≠ .lose ∧ (op = .install → a.uses = some 0)

theorem counting_of_ne {a : Account} {op : Posting} (hforget : op ≠ .forget) (hlose : op ≠ .lose)
    (hinstall : op ≠ .install) : Counting a op := ⟨hforget, hlose, fun h => absurd h hinstall⟩

theorem counting_policy : Policy Counting where
  unflagged _ _ := counting_of_ne (fun h => by cases h) (fun h => by cases h) (fun h => by cases h)
  enter _ := counting_of_ne (fun h => by cases h) (fun h => by cases h) (fun h => by cases h)
  release _ := counting_of_ne (fun h => by cases h) (fun h => by cases h) (fun h => by cases h)
  collect _ := counting_of_ne (fun h => by cases h) (fun h => by cases h) (fun h => by cases h)

theorem counts_admits {s : Fs H} {e : FsStep H} (he : e.counts cfg P s = true) (h : H) :
    e.admits Counting cfg P s h := by
  have hacquire : ∀ g data, AcquireAllowed Counting cfg P g h data := fun _ _ _ _ _ _ _ =>
    counting_of_ne (fun h => by cases h) (fun h => by cases h) (fun h => by cases h)
  have hrequest : ∀ bs, DropAllowed Counting s h bs := fun _ _ _ _ =>
    counting_of_ne (fun h => by cases h) (fun h => by cases h) (fun h => by cases h)
  obtain ⟨_, hc⟩ := Bool.and_eq_true_iff.mp he
  cases e with
  | write fh offset buf now =>
    intro f hf
    split
    · rename_i hm
      intro sd sb eb data hr
      refine ⟨hacquire _ _, fun hlt => ?_⟩
      dsimp only at hc
      unfold dropsBlocks at hc
      rw [hf] at hc
      dsimp only at hc
      rw [if_pos hm, hr] at hc
      have hsame : popBlocks f.data sb (eb + 1 - sb).toNat = f.data := by simpa using hc
      rw [hsame] at hlt
      omega
    · exact hacquire _ _
  | replaceInode fh tempIno env => exact fun _ _ => hrequest _
  | remove inodeP name stIno clock => exact fun _ _ _ => hrequest _
  | writerStep env =>
    intro q hq hk
    dsimp only at hc
    unfold installExact at hc
    rw [Option.mem_def.mp hq] at hc
    obtain ⟨hcommit, huses⟩ := Bool.and_eq_true_iff.mp hc
    rw [hcommit]
    refine ⟨(fun h => by cases h), (fun h => by cases h), fun _ => ?_⟩
    rw [← hk]
    exact of_decide_eq_true huses
  | _ => trivial

theorem truncating_counts (s : Fs H) (e : FsStep H) (h : e.truncating s) :
    e.counts cfg P s = true := by
  refine Bool.and_eq_true_iff.mpr ⟨truncating_wellFormed s e h, ?_⟩
  cases e with
  | write fh offset buf now =>
    obtain ⟨f, hf, hm, _⟩ := h
    dsimp only
    unfold dropsBlocks
    rw [hf]
    dsimp only
    rw [if_neg hm]
    rfl
  | writerStep env => exact h.elim
  | _ => rfl

section

variable {cacheSize : Nat} {hpos : 0 < cacheSize} {ds mds : List (DataStore H)}

/-- **Exact reference counts**, in every quiescent state of a run whose steps lose no count. -/
theorem uses_exact (hne : ds ≠ []) (hnum : Numbered ds) {s : Fs H} {es : List (OpStep H)}
    (hrun : ((operations cfg P).meeting fun s e => e.requires (FsStep.counts cfg P) s = true).Run
      (.fresh cacheSize hpos ds mds) es s) (hq : Quiescent s) :
    ∀ h b, s.globals.hashTable.d.get? h = some b → b.uses = s.refs h := by
  obtain ⟨es', hrun'⟩ := operations_run truncating_counts hrun
  obtain ⟨_, hbal⟩ := accounts_run (D := Counting) counting_policy (I := Account.Balanced)
    (fun a a' op hclosed hbal happly hop => hbal.apply hclosed happly hop.1 hop.2.1 hop.2.2)
    (fun s e he => ⟨(Bool.and_eq_true_iff.mp he).1, counts_admits he⟩) hrun' (.fresh hne hnum)
    fun h u hu => by cases hu
  exact fun h b hb => hq.uses_eq (hbal h) hb

end

/-- The second file gets the block after it was stored, and the first is removed and collected. -/
def countedSteps : List (OpStep Bytes) :=
  [newFile [97], newFile [98], .write 2 0 [7] 0, writerTurn, .write 3 0 [7] 0,
    .remove 1 [97] 2 fun _ => 0, .collect fun _ => seconds 10]

theorem uses_exact_sample :
    let s := System.after (fun e s => OpStep.exec onePath .plain s e) sampleFs countedSteps
    s.globals.hashTable.d.contains [7] = true ∧
    ∀ h b, s.globals.hashTable.d.get? h = some b → b.uses = s.refs h := by
  refine ⟨by decide, ?_⟩
  have hrun := System.run_meeting_after (fun e s => OpStep.exec onePath .plain s e)
    (OpStep.requires (FsStep.counts onePath .plain)) countedSteps sampleFs (by decide)
  exact uses_exact (List.cons_ne_nil _ _) sampleStores_numbered hrun ⟨by decide, by decide⟩

/-- Both files get the block before it is stored. -/
def resetSteps : List (OpStep Bytes) :=
  [newFile [97], newFile [98], .write 2 0 [7] 0, .write 3 0 [7] 0, writerTurn]

/-- The counter of the block ends at 1, with two references. -/
theorem uses_reset : ¬ ∀ (cfg : Config) (s : Fs Bytes) (es : List (OpStep Bytes)),
    (operations cfg .plain).Run sampleFs es s → Quiescent s →
      ∀ h b, s.globals.hashTable.d.get? h = some b → b.uses = s.refs h := by
  intro h
  have hrun := System.run_after (fun e s => OpStep.exec .shipped .plain s e) resetSteps sampleFs
  have huses : ((System.after (fun e s => OpStep.exec .shipped .plain s e) sampleFs
      resetSteps).globals.hashTable.d.get? [7]).map Block.uses = some 1 := by decide
  have hrefs : (System.after (fun e s => OpStep.exec .shipped .plain s e) sampleFs
      resetSteps).refs [7] = 2 := by decide
  obtain ⟨b, hb, hu⟩ := Option.map_eq_some_iff.mp huses
  have := h _ _ _ hrun ⟨by decide, by decide⟩ [7] b hb
  rw [hu, hrefs] at this
  exact absurd this (by decide)

end VeratyFS
