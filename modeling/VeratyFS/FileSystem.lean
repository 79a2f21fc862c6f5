import VeratyFS.Lib.Runs
import VeratyFS.OperationSpec

/-!
# Runs of the file system

* `FsStep`, `fileSystem` — the file operations, the writer and the collector as a transition system.
  Truncation is taken apart into its start (`copyInode`), its reads and writes, and its end
  (`replaceInode`), so that each change of the block lists is a step.
* `OpStep`, `operations` — the same with `setattr` as one step.
* `setattr_run` — which steps a `setattr` call makes; `operations_run` — a run of `operations` is a
  run of `fileSystem`.
-/

set_option autoImplicit false

namespace VeratyFS

open Pylib

variable {H : Type} [DecidableEq H] {cfg : Config} {P : Packages H}

/-! ## Steps -/

inductive FsStep (H : Type) where
  | create (a : CreateArgs) (now : Time)
  | read (fh offset length : Nat) (now : Time)
  | write (fh offset : Nat) (buf : Bytes) (now : Time)
  | copyInode (fh : Nat)
  | replaceInode (fh tempIno : Nat) (env : CallEnv H)
  | setAttributes (inode : Nat) (a : SetattrFields) (now : Time)
  | remove (inodeP : Nat) (name : Bytes) (stIno : Nat) (clock : Nat → Time)
  | flush
  | writerStep (env : CommitEnv)
  | collect (clock : Nat → Time)

/-- The state after a step, whether the call returns or raises. -/
def FsStep.exec (cfg : Config) (P : Packages H) (s : Fs H) : FsStep H → Fs H
  | .create a now => (VeratyFS.create a now s).2
  | .read fh offset length now => (VeratyFS.read cfg P fh offset length now s).2
  | .write fh offset buf now => (VeratyFS.write cfg P fh offset buf now s).2
  | .copyInode fh => (VeratyFS.copyInode fh s).2
  | .replaceInode fh tempIno env => (VeratyFS.replaceInode cfg env fh tempIno s).2
  | .setAttributes inode a now => (VeratyFS.setAttributes inode a now s).2
  | .remove inodeP name stIno clock => (removeInode cfg clock inodeP name stIno s).2
  | .flush => (VeratyFS.flush s).2
  | .writerStep env => (Fs.onGlobals (writeNewBlock cfg env) s).2
  | .collect clock => (Fs.onGlobals (garbageCollector cfg clock) s).2

def fileSystem (cfg : Config) (P : Packages H) : System (Fs H) (FsStep H) :=
  .ofFun fun e s => e.exec cfg P s

/-- The calls of the file system, and the steps of its threads. -/
inductive OpStep (H : Type) where
  | create (a : CreateArgs) (now : Time)
  | read (fh offset length : Nat) (now : Time)
  | write (fh offset : Nat) (buf : Bytes) (now : Time)
  | setattr (inode : Nat) (a : SetattrFields) (env : CallEnv H)
  | remove (inodeP : Nat) (name : Bytes) (stIno : Nat) (clock : Nat → Time)
  | flush
  | writerStep (env : CommitEnv)
  | collect (clock : Nat → Time)

/-- The step of `fileSystem` that a call other than `setattr` is. -/
def OpStep.single {H : Type} : OpStep H → Option (FsStep H)
  | .create a now => some (.create a now)
  | .read fh offset length now => some (.read fh offset length now)
  | .write fh offset buf now => some (.write fh offset buf now)
  | .setattr _ _ _ => none
  | .remove inodeP name stIno clock => some (.remove inodeP name stIno clock)
  | .flush => some .flush
  | .writerStep env => some (.writerStep env)
  | .collect clock => some (.collect clock)

def OpStep.exec (cfg : Config) (P : Packages H) (s : Fs H) : OpStep H → Fs H
  | .setattr inode a env => (VeratyFS.setattr cfg P env inode a s).2
  | .create a now => (VeratyFS.create a now s).2
  | .read fh offset length now => (VeratyFS.read cfg P fh offset length now s).2
  | .write fh offset buf now => (VeratyFS.write cfg P fh offset buf now s).2
  | .remove inodeP name stIno clock => (removeInode cfg clock inodeP name stIno s).2
  | .flush => (VeratyFS.flush s).2
  | .writerStep env => (Fs.onGlobals (writeNewBlock cfg env) s).2
  | .collect clock => (Fs.onGlobals (garbageCollector cfg clock) s).2

def operations (cfg : Config) (P : Packages H) : System (Fs H) (OpStep H) :=
  .ofFun fun e s => e.exec cfg P s

/-! ## What a `setattr` call does, step by step -/

/-- The steps of `setattr` after its first: the writes of a truncation append to a copy whose
    offsets were never computed. -/
def FsStep.truncating (s : Fs H) : FsStep H → Prop
  | .write fh offset buf _ =>
    ∃ f, s.inodes.d.get? fh = some f ∧ ¬ inMiddle f offset buf.length ∧ f.offsets = []
  | .read _ _ _ _ => True
  | .replaceInode _ tempIno _ => ∃ f, s.inodes.d.get? tempIno = some f
  | .setAttributes _ _ _ => True
  | _ => False

section

variable {C : Fs H → FsStep H → Prop} (hC : ∀ s e, e.truncating s → C s e)
include hC

/-- The copy loop, from a state whose copy ends at the offset of the loop. -/
theorem copyBlocks_run (cfg : Config) (P : Packages H) (now : Time) (newSize : Nat)
    {fh tempIno : Nat} (hne : tempIno ≠ fh) :
    ∀ (rest : List (FileBlock H)) (offset : Nat) (s : Fs H),
      (∃ f, s.inodes.d.get? tempIno = some f ∧ f.offsets = [] ∧ f.size = offset) →
      ∃ es, ((fileSystem cfg P).meeting C).Run s es
        (copyBlocks cfg P now fh tempIno newSize rest offset s).2 ∧
        ∃ f, (copyBlocks cfg P now fh tempIno newSize rest offset s).2.inodes.d.get? tempIno = some f
  | [], _, s, ⟨f, hf, _⟩ => ⟨[], .nil s, f, hf⟩
  | i :: rest, offset, s, ⟨f, hf, hoff, hsize⟩ => by
    -- one round: a read of the file, then a write at the end of the copy
    have hread : ∀ length r s₁, read cfg P fh offset length now s = (r, s₁) →
        ((fileSystem cfg P).meeting C).Run s [.read fh offset length now] s₁ ∧
        s₁.inodes.d.get? tempIno = some f := by
      intro length r s₁ hr
      have hk : Reread fh s _ := read_keeps cfg P fh offset length now s
      have hstep : ((fileSystem cfg P).meeting C).Run s [.read fh offset length now]
          (read cfg P fh offset length now s).2 :=
        .single ⟨rfl, hC s (.read fh offset length now) trivial⟩
      rw [hr] at hk hstep
      exact ⟨hstep, (hk.others tempIno hne).trans hf⟩
    have hcopy : ∀ length dat s₁, read cfg P fh offset length now s = (.ok dat, s₁) →
        ∃ s₂ f₂, write cfg P tempIno offset dat now s₁ = (.ok dat.length, s₂) ∧
          s₂.inodes.d.get? tempIno = some f₂ ∧ f₂.offsets = [] ∧ f₂.size = offset + dat.length ∧
          ((fileSystem cfg P).meeting C).Run s
            [.read fh offset length now, .write tempIno offset dat now] s₂ := by
      intro length dat s₁ hr
      obtain ⟨hrun, hf₁⟩ := hread length _ s₁ hr
      have hm : ¬ inMiddle f offset dat.length := fun ⟨_, _, hlt⟩ => by omega
      obtain ⟨blks, g', _, hw⟩ := write_append cfg P now hf₁ hm
      have hstep : ((fileSystem cfg P).meeting C).Run s₁ [.write tempIno offset dat now]
          (write cfg P tempIno offset dat now s₁).2 :=
        .single ⟨rfl, hC s₁ (.write tempIno offset dat now) ⟨f, hf₁, hm, hoff⟩⟩
      rw [hw] at hstep
      refine ⟨_, f.written (f.data ++ blks) offset dat.length now, hw, Dict.get?_set_self _ _ _, hoff,
        ?_, hrun.append hstep⟩
      change max f.size (offset + dat.length) = _
      omega
    rw [copyBlocks]
    split
    · cases hr : read cfg P fh offset i.rawSize now s with
      | mk r s₁ =>
        cases r with
        | error e =>
          obtain ⟨hrun, hf₁⟩ := hread _ _ s₁ hr
          rw [Py.run_bind_error hr]
          exact ⟨_, hrun, f, hf₁⟩
        | ok dat =>
          obtain ⟨s₂, f₂, hw, hf₂, hoff₂, hsize₂, hrun⟩ := hcopy _ _ _ hr
          rw [Py.run_bind_ok hr, Py.run_bind_ok hw]
          split
          · exact ⟨_, hrun, f₂, hf₂⟩
          · obtain ⟨es, hes, hlast⟩ := copyBlocks_run cfg P now newSize hne rest
              (offset + dat.length) s₂ ⟨f₂, hf₂, hoff₂, hsize₂⟩
            exact ⟨_, hrun.append hes, hlast⟩
    · cases hr : read cfg P fh offset (newSize - offset) now s with
      | mk r s₁ =>
        cases r with
        | error e =>
          obtain ⟨hrun, hf₁⟩ := hread _ _ s₁ hr
          rw [Py.run_bind_error hr]
          exact ⟨_, hrun, f, hf₁⟩
        | ok dat =>
          obtain ⟨s₂, f₂, hw, hf₂, _, _, hrun⟩ := hcopy _ _ _ hr
          rw [Py.run_bind_ok hr, Py.run_bind_ok hw]
          exact ⟨_, hrun, f₂, hf₂⟩

theorem truncateDown_run (env : CallEnv H) (fh newSize : Nat) (s : Fs H)
    (hcopy : C s (.copyInode fh)) :
    ∃ es, ((fileSystem cfg P).meeting C).Run s es (truncateDown cfg P env fh newSize s).2 := by
  have hstart : ((fileSystem cfg P).meeting C).Run s [.copyInode fh] (copyInode fh s).2 :=
    .single ⟨rfl, hcopy⟩
  unfold truncateDown
  cases h : s.inodes.d.get? fh with
  | none =>
    rw [copyInode_missing h] at hstart
    rw [Py.run_bind_error (copyInode_missing h)]
    exact ⟨_, hstart⟩
  | some f =>
    obtain ⟨tempIno, hnext, hrun⟩ := copyInode_run h
    have hfresh := hnext.unused
    have hne : tempIno ≠ fh := fun e => by
      rw [e, h] at hfresh
      cases hfresh
    rw [hrun] at hstart
    rw [Py.run_bind_ok hrun]
    have hfh : (s.inodes.setItem tempIno (emptied f)).d.get? fh = some f :=
      (Dict.get?_set_ne _ _ hne).trans h
    have htemp : (s.inodes.setItem tempIno (emptied f)).d.get? tempIno = some (emptied f) :=
      Dict.get?_set_self _ _ _
    obtain ⟨es, hes, hlast⟩ := copyBlocks_run hC cfg P (env.clock 0) newSize hne f.data 0
      { s with inodes := s.inodes.setItem tempIno (emptied f) }
      ⟨_, htemp, rfl, rfl⟩
    cases hcopy : copyBlocks cfg P (env.clock 0) fh tempIno newSize f.data 0
        { s with inodes := s.inodes.setItem tempIno (emptied f) } with
    | mk r s₁ =>
      rw [hcopy] at hes hlast
      cases r with
      | error e =>
        have hbody := (Py.run_bind_ok (f := fun f => do
            copyBlocks cfg P (env.clock 0) fh tempIno newSize f.data 0
            replaceInode cfg env fh tempIno) (inodeAt_run hfh)).trans (Py.run_bind_error hcopy)
        rw [Py.run_attempt_error hbody]
        exact ⟨_, hstart.append hes⟩
      | ok _ =>
        have hend : ((fileSystem cfg P).meeting C).Run s₁ [.replaceInode fh tempIno env]
            (replaceInode cfg env fh tempIno s₁).2 :=
          .single ⟨rfl, hC s₁ (.replaceInode fh tempIno env) hlast⟩
        have hbody := (Py.run_bind_ok (f := fun f => do
            copyBlocks cfg P (env.clock 0) fh tempIno newSize f.data 0
            replaceInode cfg env fh tempIno) (inodeAt_run hfh)).trans (Py.run_bind_ok hcopy)
        refine ⟨_ ++ [.replaceInode fh tempIno env], (hstart.append hes).append (t := s₁) ?_⟩
        · cases hlast : replaceInode cfg env fh tempIno s₁ with
          | mk r' s₂ =>
            rw [hlast] at hbody hend
            cases r' with
            | error e =>
              rw [Py.run_attempt_error hbody]
              exact hend
            | ok _ =>
              rw [Py.run_attempt_ok hbody]
              exact hend

/-- **A `setattr` call is a run of `fileSystem`.**  It makes at most one write of its own, of zeros
at the end of the file; the writes of a truncation append to its copy. -/
theorem setattr_run (env : CallEnv H) (inode : Nat) (a : SetattrFields) (s : Fs H)
    (hgrow : ∀ f n, s.inodes.d.get? inode = some f → a.stSize = some n → f.size < n →
      C s (.write f.inode f.size (List.replicate (n - f.size) 0) (env.clock 0)))
    (hshrink : ∀ f n, s.inodes.d.get? inode = some f → a.stSize = some n → n < f.size →
      C s (.copyInode f.inode)) :
    ∃ es, ((fileSystem cfg P).meeting C).Run s es (setattr cfg P env inode a s).2 := by
  cases h : s.inodes.d.get? inode with
  | none =>
    unfold setattr
    rw [Py.run_bind_error (inodeAt_missing h)]
    exact ⟨[], .nil s⟩
  | some f =>
    -- the size part ends in some state, whatever it raises
    have hsize : ∃ es s₁, ((fileSystem cfg P).meeting C).Run s es s₁ ∧
        updateSize cfg P env f a.stSize s = (.ok (), s₁) := by
      cases ha : a.stSize with
      | none => exact ⟨[], s, .nil s, rfl⟩
      | some size =>
        have hres : ∃ es, ((fileSystem cfg P).meeting C).Run s es (resize cfg P env f size s).2 := by
          unfold resize
          split
          · rename_i hlt
            have hw : ((fileSystem cfg P).meeting C).Run s
                [.write f.inode f.size (List.replicate (size - f.size) 0) (env.clock 0)]
                (write cfg P f.inode f.size (List.replicate (size - f.size) 0) (env.clock 0) s).2 :=
              .single ⟨rfl, hgrow f size h ha hlt⟩
            cases hr : write cfg P f.inode f.size (List.replicate (size - f.size) 0) (env.clock 0) s with
            | mk r s₁ =>
              rw [hr] at hw
              cases r with
              | error e =>
                rw [Py.run_bind_error hr]
                exact ⟨_, hw⟩
              | ok _ =>
                rw [Py.run_bind_ok hr]
                exact ⟨_, hw⟩
          · split
            · rename_i hlt
              exact truncateDown_run hC env f.inode size s (hshrink f size h ha hlt)
            · exact ⟨[], .nil s⟩
        obtain ⟨es, hes⟩ := hres
        refine ⟨es, _, hes, ?_⟩
        cases hr : resize cfg P env f size s with
        | mk r s₁ =>
          cases r with
          | error e => exact Py.run_attempt_error hr
          | ok _ => exact Py.run_attempt_ok hr
    obtain ⟨es, s₁, hes, hrun⟩ := hsize
    have hset : ((fileSystem cfg P).meeting C).Run s₁ [.setAttributes inode a (env.clock 0)]
        (setAttributes inode a (env.clock 0) s₁).2 :=
      .single ⟨rfl, hC s₁ (.setAttributes inode a (env.clock 0)) trivial⟩
    have hend : (setattr cfg P env inode a s).2 = (setAttributes inode a (env.clock 0) s₁).2 := by
      unfold setattr
      rw [Py.run_bind_ok (inodeAt_run h)]
      refine (congrArg Prod.snd (Py.run_bind_ok hrun)).trans ?_
      cases hr : setAttributes inode a (env.clock 0) s₁ with
      | mk r s₂ =>
        cases r with
        | error e => exact congrArg Prod.snd (Py.run_bind_error hr)
        | ok _ =>
          rw [Py.run_bind_ok hr]
          exact getattr_state inode s₂
    rw [hend]
    exact ⟨_, hes.append hset⟩

end

/-- What a call must satisfy for its steps to satisfy `C`: a call of one step is that step; a
`setattr` call that changes the size starts with a write at the end of the file, or with a copy of
the inode. -/
def OpStep.requires {H : Type} (C : Fs H → FsStep H → Bool) (s : Fs H) : OpStep H → Bool
  | .setattr inode a env =>
    match s.inodes.d.get? inode, a.stSize with
    | some f, some size =>
      if f.size < size then
        C s (.write f.inode f.size (List.replicate (size - f.size) 0) (env.clock 0))
      else if size < f.size then C s (.copyInode f.inode)
      else true
    | _, _ => true
  | e =>
    match e.single with
    | some e' => C s e'
    | none => true

/-- **A run of `operations` is a run of `fileSystem`**, with the conditions of its steps, when the
later steps of a truncation satisfy them. -/
theorem operations_run {C : Fs H → FsStep H → Bool} (hC : ∀ s e, e.truncating s → C s e = true)
    {s s' : Fs H} {es : List (OpStep H)}
    (h : ((operations cfg P).meeting fun s e => e.requires C s = true).Run s es s') :
    ∃ es', ((fileSystem cfg P).meeting fun s e => C s e = true).Run s es' s' := by
  refine h.expand fun s e s' hs => ?_
  obtain ⟨rfl, hc⟩ := hs
  cases he : e.single with
  | some e' =>
    refine ⟨[e'], .single ⟨?_, ?_⟩⟩ <;> cases e <;> cases he
    all_goals first | rfl | exact hc
  | none =>
    cases e with
    | setattr inode a env =>
      unfold OpStep.requires at hc
      dsimp only at hc
      refine setattr_run hC env inode a s (fun f n hf hn hlt => ?_) fun f n hf hn hlt => ?_
      · rw [hf, hn] at hc
        dsimp only at hc
        rwa [if_pos hlt] at hc
      · rw [hf, hn] at hc
        dsimp only at hc
        rwa [if_neg (by omega), if_pos hlt] at hc
    | _ => cases he

end VeratyFS
