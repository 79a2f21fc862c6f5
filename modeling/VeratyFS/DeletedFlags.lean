import Mathlib.Algebra.Order.BigOperators.Group.List
import Mathlib.Algebra.Order.Group.Nat
import VeratyFS.LiveData

/-!
# The DELETED flag

`update_index(add=False)` flags an entry whatever references are left, and `dedup` counts another
use of a flagged entry without clearing the flag.

* `meetsFlagged`, `lastReferences`, `FsStep.flagsLast` — the steps that do neither.
* `deleted_unreferenced` — in every run of such steps (and of installs within the bound of
  `installCovered`), a flagged hash has no reference, and `get_usage` counts what is in use.
* `deleted_shared` — two files share a block, and one of them is removed.
-/

set_option autoImplicit false
set_option maxRecDepth 1024

namespace VeratyFS

open Pylib Refcount

variable {H : Type} [DecidableEq H] {cfg : Config} {P : Packages H}

/-- The stored sizes of the entries that a file refers to. -/
def usedSize (s : Fs H) : Nat :=
  (s.globals.hashTable.d.entries.map fun e => if 0 < s.refs e.1 then e.2.size else 0).sum

/-- **Usage covers what is in use** when flagged hashes have no references. -/
theorem usedSize_le {s : Fs H}
    (h : ∀ k b, s.globals.hashTable.d.get? k = some b → b.DELETED = true → s.refs k = 0) :
    usedSize s ≤ (getUsage s.globals).dedupedCompressed := by
  refine List.sum_le_sum fun e he => ?_
  have hget : s.globals.hashTable.d.get? e.1 = some e.2 := (Dict.mem_entries_iff _).mp he
  split
  · rename_i hpos
    unfold counted
    split
    · rename_i hdel
      have := h e.1 e.2 hget hdel
      omega
    · exact Nat.le_refl _
  · exact Nat.zero_le _

/-! ## Steps that flag only what nothing refers to -/

/-- `dedup` of the data meets a hash whose entry is flagged. -/
def meetsFlagged (cfg : Config) (P : Packages H) (g : Globals H) (data : Bytes) : Bool :=
  (chunkHashes cfg P data).any fun h => ((g.hashTable.d.get? h).map Block.DELETED).getD false

/-- The write stores no chunk of a flagged hash. -/
def writesUnflagged (cfg : Config) (P : Packages H) (s : Fs H) (fh offset : Nat) (buf : Bytes) :
    Bool :=
  match s.inodes.d.get? fh with
  | none => true
  | some f =>
    if inMiddle f offset buf.length then
      match (retrieveData cfg P fh offset buf.length true s).1 with
      | .ok (.whole sd _ _ data) => !meetsFlagged cfg P s.globals
        (spliceAt data (max 0 sd) ((buf.length : Int) + max 0 sd) buf)
      | _ => true
    else !meetsFlagged cfg P s.globals buf

/-- All references of the file's hashes are in the file. -/
def lastReferences (s : Fs H) (fh : Nat) : Bool :=
  match s.inodes.d.get? fh with
  | none => true
  | some f => f.data.all fun b => decide (s.refs b.hash = occurrences b.hash f.data)

def FsStep.flagsLast (cfg : Config) (P : Packages H) (s : Fs H) (e : FsStep H) : Bool :=
  e.covers cfg s &&
    match e with
    | .write fh offset buf _ => writesUnflagged cfg P s fh offset buf
    | .replaceInode fh _ _ => lastReferences s fh
    | .remove inodeP name stIno _ => removalRefused s inodeP name || lastReferences s stIno
    | _ => true

/-- Installs within the bound; no reference to a flagged object; requests for the last reference. -/
def Flagging (a : Account) (op : Posting) : Prop :=
  Covering a op ∧ (op = .acquire → a.flag = false) ∧ (op = .request → a.refs = 0)

theorem flagging_policy : Policy Flagging where
  unflagged a h := ⟨covering_policy.unflagged a h, fun _ => h, fun h => by cases h⟩
  enter a := ⟨covering_policy.enter a, (fun h => by cases h), fun h => by cases h⟩
  release a := ⟨covering_policy.release a, (fun h => by cases h), fun h => by cases h⟩
  collect a := ⟨covering_policy.collect a, (fun h => by cases h), fun h => by cases h⟩

theorem acquireAllowed_of_unflagged {D : Account → Posting → Prop} {g : Globals H} {data : Bytes}
    (h : (!meetsFlagged cfg P g data) = true) (k : H) : AcquireAllowed D cfg P g k data := by
  intro hk b hb hdel
  have hmeets : meetsFlagged cfg P g data = true := by
    unfold meetsFlagged
    rw [List.any_eq_true]
    exact ⟨k, hk, by rw [hb]; exact hdel⟩
  rw [hmeets] at h
  cases h

theorem dropAllowed_of_last {s : Fs H} {fh : Nat} (h : lastReferences s fh = true) {f : FileInode H}
    (hf : s.inodes.d.get? fh = some f) (k : H) : DropAllowed Flagging s k f.data := by
  intro hpos a ha
  refine ⟨(fun h => by cases h), (fun h => by cases h), fun _ => ?_⟩
  unfold lastReferences at h
  rw [hf] at h
  obtain ⟨b, hb, hbk⟩ := occurrences_pos.mp hpos
  have hlast := of_decide_eq_true (List.all_eq_true.mp h b hb)
  rw [hbk] at hlast
  omega

theorem flagsLast_admits {s : Fs H} {e : FsStep H} (he : e.flagsLast cfg P s = true) (h : H) :
    e.admits Flagging cfg P s h := by
  obtain ⟨hcov, hc⟩ := Bool.and_eq_true_iff.mp he
  cases e with
  | write fh offset buf now =>
    intro f hf
    dsimp only at hc
    unfold writesUnflagged at hc
    rw [hf] at hc
    dsimp only at hc
    split
    · rename_i hm
      rw [if_pos hm] at hc
      intro sd sb eb data hr
      rw [hr] at hc
      refine ⟨acquireAllowed_of_unflagged hc h, fun _ a => ?_⟩
      exact ⟨(fun h => by cases h), (fun h => by cases h), fun h => by cases h⟩
    · rename_i hm
      rw [if_neg hm] at hc
      exact acquireAllowed_of_unflagged hc h
  | replaceInode fh tempIno env => exact fun f hf => dropAllowed_of_last hc hf h
  | remove inodeP name stIno clock =>
    intro hstart f hf
    dsimp only at hc
    rw [hstart, Bool.false_or] at hc
    exact dropAllowed_of_last hc hf h
  | writerStep env =>
    intro q hq hk
    have hw := installCovered_allowed (Bool.and_eq_true_iff.mp hcov).2 h q hq hk
    refine ⟨hw, fun ha => ?_, fun ha => ?_⟩ <;> split at ha <;> cases ha
  | _ => trivial

section

variable {cacheSize : Nat} {hpos : 0 < cacheSize} {ds mds : List (DataStore H)}

/-- **DELETED means unreferenced**, and `get_usage` counts every block in use, in every run whose
steps flag only what nothing refers to. -/
theorem deleted_unreferenced (hne : ds ≠ []) (hnum : Numbered ds) {s : Fs H} {es : List (FsStep H)}
    (hrun : ((fileSystem cfg P).meeting fun s e => e.flagsLast cfg P s = true).Run
      (.fresh cacheSize hpos ds mds) es s) :
    (∀ h b, s.globals.hashTable.d.get? h = some b → b.DELETED = true →
      ∀ fh f, s.inodes.d.get? fh = some f → ∀ b' ∈ f.data, b'.hash ≠ h) ∧
    usedSize s ≤ (getUsage s.globals).dedupedCompressed := by
  obtain ⟨_, hacc⟩ := accounts_run (D := Flagging) flagging_policy
    (I := fun a => a.Covered ∧ a.Unflagged)
    (fun a a' op hclosed ⟨hcov, hun⟩ happly ⟨hbound, hacquire, hrequest⟩ =>
      ⟨hcov.apply hclosed happly hbound, hun.apply hcov happly hacquire hrequest⟩)
    (fun s e he => ⟨(Bool.and_eq_true_iff.mp (Bool.and_eq_true_iff.mp he).1).1, flagsLast_admits he⟩)
    hrun (.fresh hne hnum) fun h => ⟨fun u hu => (by cases hu), fun hf => by cases hf⟩
  have hrefs : ∀ k b, s.globals.hashTable.d.get? k = some b → b.DELETED = true → s.refs k = 0 := by
    intro k b hb hdel
    refine (hacc k).2 ?_
    unfold Fs.account Globals.account
    rw [hb]
    exact hdel
  exact ⟨fun h b hb hdel => refs_eq_zero.mp (hrefs h b hb hdel), usedSize_le hrefs⟩

end

/-- One file is removed once its block is stored; another has its own block. -/
def flaggedSteps : List (FsStep Bytes) :=
  [.create ⟨1, [97], 33188, 0, 0, 0, none⟩ 0, .create ⟨1, [98], 33188, 0, 0, 0, none⟩ 0,
    .write 2 0 [7] 0, .write 3 0 [8, 9] 0, .writerStep ⟨⟨fun _ => 0, fun _ => 0, false⟩, ⟨fun _ => 0, fun _ => 0, false⟩⟩,
    .remove 1 [97] 2 fun _ => 0]

theorem deleted_unreferenced_sample :
    let s := System.after (fun e s => FsStep.exec onePath .plain s e) sampleFs flaggedSteps
    (s.globals.hashTable.d.get? [7]).map Block.DELETED = some true ∧
    (∀ h b, s.globals.hashTable.d.get? h = some b → b.DELETED = true →
      ∀ fh f, s.inodes.d.get? fh = some f → ∀ b' ∈ f.data, b'.hash ≠ h) ∧
    usedSize s ≤ (getUsage s.globals).dedupedCompressed := by
  refine ⟨by decide, ?_⟩
  have hrun := System.run_meeting_after (fun e s => FsStep.exec onePath .plain s e)
    (FsStep.flagsLast onePath .plain) flaggedSteps sampleFs (by decide)
  exact deleted_unreferenced (List.cons_ne_nil _ _) sampleStores_numbered hrun

/-- Two files share a block, and one of them is removed. -/
def sharedRemoval : List (FsStep Bytes) :=
  [.create ⟨1, [97], 33188, 0, 0, 0, none⟩ 0, .create ⟨1, [98], 33188, 0, 0, 0, none⟩ 0,
    .write 2 0 [7] 0, .write 3 0 [7] 0, .remove 1 [97] 2 fun _ => 0]

/-- The block of the other file is flagged. -/
theorem deleted_shared : ¬ ∀ (cfg : Config) (s : Fs Bytes) (es : List (FsStep Bytes)),
    (fileSystem cfg .plain).Run sampleFs es s →
      (∀ h b, s.globals.hashTable.d.get? h = some b → b.DELETED = true →
        ∀ fh f, s.inodes.d.get? fh = some f → ∀ b' ∈ f.data, b'.hash ≠ h) ∧
      usedSize s ≤ (getUsage s.globals).dedupedCompressed := by
  intro h
  have hrun := System.run_after (fun e s => FsStep.exec .shipped .plain s e) sharedRemoval sampleFs
  have hflag : ((System.after (fun e s => FsStep.exec .shipped .plain s e) sampleFs
      sharedRemoval).globals.hashTable.d.get? [7]).map Block.DELETED = some true := by
    decide
  have hlive : ((System.after (fun e s => FsStep.exec .shipped .plain s e) sampleFs
      sharedRemoval).inodes.d.get? 3).map FileInode.data = some [⟨[7], 1, 1⟩] := by decide
  obtain ⟨b, hb, hdel⟩ := Option.map_eq_some_iff.mp hflag
  obtain ⟨f, hf, hdata⟩ := Option.map_eq_some_iff.mp hlive
  exact (h _ _ _ hrun).1 [7] b hb hdel 3 f hf ⟨[7], 1, 1⟩ (by rw [hdata]; exact List.mem_cons_self)
    rfl

end VeratyFS
