import VeratyFS.DurableInodes
import VeratyFS.NamespaceSpec

/-!
# Resizes whose calls raise

`truncate_down` and `setattr` swallow every exception of the calls they make.  Here each read, each
write and each `update_index` of a resize may raise (`Faults`).

* `setattrUnder` — `setattr` with the faults; `setattrUnder_none` — without any it is `setattr`.
* `CopyFrame`, `copyBlocksUnder_frame` — whatever raises in the copy loop, the copy stays in the table.
* `Truncates`, `truncateDownUnder_cases` — a truncation returns in any case, and leaves its copy
  behind unless none of its calls raises.
-/

set_option autoImplicit false

namespace VeratyFS

open Pylib

variable {H : Type} [DecidableEq H]

/-! ## The calls -/

/-- The calls of a resize: a read and a write in each round of the copy loop, then one `update_index`
for each block.  A file grows by the write of round 0. -/
inductive InnerCall where
  | read (round : Nat)
  | write (round : Nat)
  | updateIndex (i : Nat)
  deriving DecidableEq, Repr

/-- What a call raises, and what it did to the module state before. -/
structure Fault (H : Type) where
  error : PyError
  leaves : Globals H → Globals H

/-- The calls that raise. -/
abbrev Faults (H : Type) := InnerCall → Option (Fault H)

def interrupted {H α : Type} (x : Option (Fault H)) (m : Op H α) : Op H α :=
  match x with
  | none => m
  | some x => do
    Py.modify fun s => { s with globals := x.leaves s.globals }
    Py.raise x.error

variable (φ : Faults H) (cfg : Config) (P : Packages H)

def copyBlocksUnder (now : Time) (fh tempIno newSize : Nat) :
    Nat → List (FileBlock H) → Nat → Op H Unit
  | _, [], _ => return ()
  | round, i :: rest, offset =>
    if i.rawSize + offset ≤ newSize then do
      let dat ← interrupted (φ (.read round)) (read cfg P fh offset i.rawSize now)
      let written ← interrupted (φ (.write round)) (write cfg P tempIno offset dat now)
      if offset + written = newSize then return ()
      else copyBlocksUnder now fh tempIno newSize (round + 1) rest (offset + written)
    else do
      let dat ← interrupted (φ (.read round)) (read cfg P fh offset (newSize - offset) now)
      let _written ← interrupted (φ (.write round)) (write cfg P tempIno offset dat now)
      return ()

/-- `update_index(i.hash, add=False)` for one of the blocks. -/
def dropBlockUnder (clock : Nat → Time) (i : FileBlock H × Nat) : Op H Unit :=
  interrupted (φ (.updateIndex i.2)) (Fs.onGlobals (updateIndexRemove cfg (clock i.2) i.1.hash))

def dropBlocksUnder (clock : Nat → Time) (blocks : List (FileBlock H)) : Op H Unit :=
  Py.forEach (dropBlockUnder φ cfg clock) blocks.zipIdx

def replaceInodeUnder (env : CallEnv H) (fh tempIno : Nat) : Op H Unit := do
  let f ← inodeAt fh
  dropBlocksUnder φ cfg env.clock (env.order.run f.data)
  let fNew ← inodeAt tempIno
  setInode fh fNew
  delInode tempIno

/-- The `try` block of `truncate_down`. -/
def fillCopyUnder (env : CallEnv H) (fh tempIno newSize : Nat) : Op H Unit := do
  let f ← inodeAt fh
  copyBlocksUnder φ cfg P (env.clock 0) fh tempIno newSize 0 f.data 0
  replaceInodeUnder φ cfg env fh tempIno

def truncateDownUnder (env : CallEnv H) (fh newSize : Nat) : Op H Unit := do
  let tempIno ← copyInode fh
  Py.attempt (fillCopyUnder φ cfg P env fh tempIno newSize) (fun _ => return ())

def resizeUnder (env : CallEnv H) (f : FileInode H) (size : Nat) : Op H Unit :=
  if f.size < size then do
    let _written ← interrupted (φ (.write 0))
      (write cfg P f.inode f.size (List.replicate (size - f.size) 0) (env.clock 0))
    return ()
  else if size < f.size then
    truncateDownUnder φ cfg P env f.inode size
  else
    return ()

def updateSizeUnder (env : CallEnv H) (f : FileInode H) : Option Nat → Op H Unit
  | none => return ()
  | some size => Py.attempt (resizeUnder φ cfg P env f size) (fun _ => return ())

/-- `setattr` when the calls of `φ` raise. -/
def setattrUnder (env : CallEnv H) (inode : Nat) (a : SetattrFields) : Op H EntryAttributes := do
  let old ← inodeAt inode
  updateSizeUnder φ cfg P env old a.stSize
  setAttributes inode a (env.clock 0)
  getattr inode

/-! ### No call raises -/

omit φ

theorem copyBlocksUnder_none (now : Time) (fh tempIno newSize : Nat) :
    ∀ (round : Nat) (bs : List (FileBlock H)) (offset : Nat),
      copyBlocksUnder (fun _ => none) cfg P now fh tempIno newSize round bs offset =
        copyBlocks cfg P now fh tempIno newSize bs offset
  | _, [], _ => rfl
  | round, i :: rest, offset => by
    rw [copyBlocksUnder, copyBlocks]
    simp only [copyBlocksUnder_none now fh tempIno newSize (round + 1) rest]
    rfl

omit [DecidableEq H] in
theorem onGlobals_forEach {β : Type} (m : β → Task H Unit) : ∀ l : List β,
    Py.forEach (fun b => Fs.onGlobals (m b)) l = Fs.onGlobals (Py.forEach m l)
  | [] => rfl
  | b :: l => by
    funext s
    have hrest := congrFun (onGlobals_forEach m l)
    cases hb : m b s.globals with
    | mk r g =>
      have hone : Fs.onGlobals (m b) s = (r, { s with globals := g }) := Py.run_zoom hb
      cases r with
      | error e =>
        have hloop : Py.forEach m (b :: l) s.globals = (.error e, g) := Py.run_bind_error hb
        refine (Py.run_bind_error (f := fun _ => Py.forEach _ l) hone).trans ?_
        exact Eq.symm (Py.run_zoom hloop)
      | ok _ =>
        have hloop : Py.forEach m (b :: l) s.globals = Py.forEach m l g := Py.run_bind_ok hb
        refine (Py.run_bind_ok (f := fun _ => Py.forEach _ l) hone).trans ((hrest _).trans ?_)
        exact Eq.symm (Py.run_zoom hloop)

theorem dropBlocksUnder_none (clock : Nat → Time) (bs : List (FileBlock H)) :
    dropBlocksUnder (fun _ => none) cfg clock bs = Fs.onGlobals (dropBlocks cfg clock bs) :=
  onGlobals_forEach (fun i : FileBlock H × Nat => updateIndexRemove cfg (clock i.2) i.1.hash) bs.zipIdx

theorem truncateDownUnder_none (env : CallEnv H) (fh newSize : Nat) :
    truncateDownUnder (fun _ => none) cfg P env fh newSize = truncateDown cfg P env fh newSize := by
  unfold truncateDownUnder truncateDown fillCopyUnder replaceInodeUnder replaceInode
  simp only [copyBlocksUnder_none, dropBlocksUnder_none]

/-- **Without faults it is `setattr`.** -/
theorem setattrUnder_none (env : CallEnv H) (inode : Nat) (a : SetattrFields) :
    setattrUnder (fun _ => none) cfg P env inode a = setattr cfg P env inode a := by
  unfold setattrUnder setattr
  refine congrArg _ (funext fun f => congrArg (· >>= _) ?_)
  cases a.stSize with
  | none => rfl
  | some size =>
    unfold updateSizeUnder updateSize resizeUnder resize
    dsimp only
    rw [truncateDownUnder_none]
    rfl

/-! ## What stays in the table -/

section

variable {φ : Faults H} {cfg : Config} {P : Packages H} {s₀ s : Fs H} {fh tempIno offset : Nat}
  {f : FileInode H}

/-- While the copy is made: the file is what it was but for its offset cache, the copy is there and
ends at the offset, and the other inodes are untouched. -/
structure CopyFrame (s₀ : Fs H) (fh tempIno : Nat) (f : FileInode H) (offset : Nat) (s : Fs H) :
    Prop where
  file : ∃ f₁, s.inodes.d.get? fh = some f₁ ∧ OffsetsOnly f f₁
  copy : ∃ t, s.inodes.d.get? tempIno = some t ∧ t.size = offset
  others : ∀ k, k ≠ fh → k ≠ tempIno → s.inodes.d.get? k = s₀.inodes.d.get? k

omit [DecidableEq H] in
/-- A call that raises leaves the inodes alone. -/
theorem interrupted_cases {α : Type} (x : Option (Fault H)) (m : Op H α) (s : Fs H) :
    (x = none ∧ interrupted x m s = m s) ∨
      ∃ y, x = some y ∧ interrupted x m s = (.error y.error, { s with globals := y.leaves s.globals }) := by
  cases x with
  | none => exact .inl ⟨rfl, rfl⟩
  | some y => exact .inr ⟨y, rfl, rfl⟩

theorem CopyFrame.read (h : CopyFrame s₀ fh tempIno f offset s) (hne : tempIno ≠ fh)
    (x : Option (Fault H)) (length : Nat) (now : Time) :
    CopyFrame s₀ fh tempIno f offset (interrupted x (read cfg P fh offset length now) s).2 := by
  rcases interrupted_cases x (VeratyFS.read cfg P fh offset length now) s with
    ⟨_, hrun⟩ | ⟨y, _, hrun⟩
  · rw [hrun]
    have hreread : Reread fh s _ := read_keeps cfg P fh offset length now s
    obtain ⟨f₁, hf₁, honly⟩ := h.file
    obtain ⟨t, ht, hsize⟩ := h.copy
    obtain ⟨f₂, hf₂, honly'⟩ := hreread.of_some hf₁
    exact ⟨⟨f₂, hf₂, honly.trans honly'⟩, ⟨t, (hreread.others _ hne).trans ht, hsize⟩,
      fun k hk hk' => (hreread.others k hk).trans (h.others k hk hk')⟩
  · rw [hrun]
    exact ⟨h.file, h.copy, h.others⟩

/-- A write at the end of the copy raises, or the copy is longer. -/
theorem CopyFrame.write (h : CopyFrame s₀ fh tempIno f offset s) (hne : tempIno ≠ fh)
    (x : Option (Fault H)) (dat : Bytes) (now : Time) :
    (∃ e s₁, interrupted x (write cfg P tempIno offset dat now) s = (.error e, s₁) ∧
      CopyFrame s₀ fh tempIno f offset s₁) ∨
    ∃ s₁, interrupted x (write cfg P tempIno offset dat now) s = (.ok dat.length, s₁) ∧
      CopyFrame s₀ fh tempIno f (offset + dat.length) s₁ := by
  rcases interrupted_cases x (VeratyFS.write cfg P tempIno offset dat now) s with
    ⟨_, hrun⟩ | ⟨y, _, hrun⟩
  · obtain ⟨t, ht, hsize⟩ := h.copy
    have hm : ¬ inMiddle t offset dat.length := fun ⟨_, _, hlt⟩ => by omega
    obtain ⟨blks, g', _, hw⟩ := write_append cfg P now ht hm
    rw [hrun, hw]
    refine .inr ⟨_, rfl, ?_, ⟨_, Dict.get?_set_self _ _ _, ?_⟩, fun k hk hk' => ?_⟩
    · obtain ⟨f₁, hf₁, honly⟩ := h.file
      exact ⟨f₁, (Dict.get?_set_ne _ _ hne).trans hf₁, honly⟩
    · change max t.size (offset + dat.length) = _
      omega
    · exact (Dict.get?_set_ne _ _ fun e => hk' e.symm).trans (h.others k hk hk')
  · rw [hrun]
    exact .inl ⟨_, _, rfl, h.file, h.copy, h.others⟩

/-- **Whatever raises in the copy loop, the copy is there afterwards.** -/
theorem copyBlocksUnder_frame (hne : tempIno ≠ fh) (now : Time) (newSize : Nat) :
    ∀ (rest : List (FileBlock H)) (round offset : Nat) (s : Fs H),
      CopyFrame s₀ fh tempIno f offset s →
      ∃ offset', CopyFrame s₀ fh tempIno f offset'
        (copyBlocksUnder φ cfg P now fh tempIno newSize round rest offset s).2
  | [], _, offset, s, h => ⟨offset, h⟩
  | i :: rest, round, offset, s, h => by
    -- one round, whatever follows it
    have hround : ∀ (length : Nat) (next : Nat → Op H Unit),
        (∀ written s₂, CopyFrame s₀ fh tempIno f (offset + written) s₂ →
          ∃ offset', CopyFrame s₀ fh tempIno f offset' (next written s₂).2) →
        ∃ offset', CopyFrame s₀ fh tempIno f offset' ((do
          let dat ← interrupted (φ (.read round)) (VeratyFS.read cfg P fh offset length now)
          let written ← interrupted (φ (.write round))
            (VeratyFS.write cfg P tempIno offset dat now)
          next written : Op H Unit) s).2 := by
      intro length next hnext
      have hread : CopyFrame s₀ fh tempIno f offset
          (interrupted (φ (.read round)) (VeratyFS.read cfg P fh offset length now) s).2 :=
        h.read hne _ length now
      cases hr : interrupted (φ (.read round)) (VeratyFS.read cfg P fh offset length now) s with
      | mk r s₁ =>
        rw [hr] at hread
        cases r with
        | error e =>
          rw [Py.run_bind_error hr]
          exact ⟨offset, hread⟩
        | ok dat =>
          rw [Py.run_bind_ok hr]
          rcases hread.write hne (φ (.write round)) dat now with ⟨e, s₂, hw, h₂⟩ | ⟨s₂, hw, h₂⟩
          · rw [Py.run_bind_error hw]
            exact ⟨offset, h₂⟩
          · rw [Py.run_bind_ok hw]
            exact hnext _ _ h₂
    rw [copyBlocksUnder]
    split
    · refine hround _ _ fun written s₂ h₂ => ?_
      split
      · exact ⟨_, h₂⟩
      · exact copyBlocksUnder_frame hne now newSize rest (round + 1) _ s₂ h₂
    · exact hround _ _ fun written s₂ h₂ => ⟨_, h₂⟩

theorem dropBlocksUnder_inodes (clock : Nat → Time) (bs : List (FileBlock H)) (s : Fs H) :
    (dropBlocksUnder φ cfg clock bs s).2.inodes = s.inodes := by
  have hkeeps : Py.Keeps (InvImage Eq fun s : Fs H => s.inodes) (dropBlocksUnder φ cfg clock bs) := by
    refine Py.keeps_forEach fun i s => ?_
    rcases interrupted_cases (φ (.updateIndex i.2))
      (Fs.onGlobals (updateIndexRemove cfg (clock i.2) i.1.hash)) s with ⟨_, hrun⟩ | ⟨y, _, hrun⟩
    · exact (congrArg (fun o => o.2.inodes) hrun).symm
    · exact (congrArg (fun o => o.2.inodes) hrun).symm
  exact (hkeeps s).symm

/-! ## The end of a resize -/

omit [DecidableEq H] in
/-- The same numbers, when only an inode that is there was set. -/
theorem numbers_of_others {t t' : FSMeta H} {f' : FileInode H} (hf : t.d.get? fh = some f)
    (hf' : t'.d.get? fh = some f') (hothers : ∀ k, k ≠ fh → t'.d.get? k = t.d.get? k) (k : Nat) :
    t'.d.contains k = t.d.contains k := by
  unfold Dict.contains
  by_cases hk : k = fh
  · rw [hk, hf, hf']
    rfl
  · rw [hothers k hk]

omit [DecidableEq H] in
theorem numbers_of_setItem {t : FSMeta H} (hf : t.d.get? fh = some f) (f' : FileInode H) (k : Nat) :
    (t.setItem fh f').d.contains k = t.d.contains k :=
  numbers_of_others hf (Dict.get?_set_self _ _ _) (fun _ hk => Dict.get?_set_ne _ _ fun e => hk e.symm) k

omit [DecidableEq H] in
/-- The end of `setattr`: the other attributes, and the reply. -/
theorem setAttributes_getattr (hf : s.inodes.d.get? fh = some f) (a : SetattrFields) (now : Time) :
    (do setAttributes fh a now; getattr fh : Op H EntryAttributes) s =
      (.ok ((f.withAttributes a now).attributes fh),
        { s with inodes := s.inodes.setItem fh (f.withAttributes a now) }) := by
  have hset : setAttributes fh a now s =
      (.ok (), { s with inodes := s.inodes.setItem fh (f.withAttributes a now) }) := by
    unfold setAttributes
    rw [Py.run_bind_ok (inodeAt_run hf)]
    rfl
  rw [Py.run_bind_ok hset]
  exact getattr_run (Dict.get?_set_self _ _ _)

omit [DecidableEq H] in
/-- The table when the copy has taken the place of the inode. -/
theorem takePlace_get? {t : FSMeta H} {fNew : FileInode H} (ht : t.d.get? tempIno = some fNew)
    (hne : tempIno ≠ fh) (k : Nat) :
    ((t.setItem fh fNew).delItem tempIno).2.d.get? k =
      if tempIno = k ∧ tempIno < 256 ^ 64 then none
      else if fh = k then some fNew else t.d.get? k := by
  have hcopy : (t.setItem fh fNew).d.get? tempIno = some fNew := by
    rw [FSMeta.setItem_d, Dict.get?_set_ne _ _ fun e => hne e.symm, ht]
  by_cases hfit : tempIno < 256 ^ 64
  · rw [FSMeta.delItem_d_get?_of_fits (toBytes_isSome.mpr hfit)
      ((Dict.contains_iff _).mpr ⟨fNew, hcopy⟩), FSMeta.setItem_d, Dict.get?_set]
    simp only [hfit, and_true]
  · have hnone : toBytes 64 tempIno = none :=
      Option.not_isSome_iff_eq_none.mp fun h => hfit (toBytes_isSome.mp h)
    have hsame : ((t.setItem fh fNew).delItem tempIno).2.d = (t.setItem fh fNew).d := by
      unfold FSMeta.delItem FSMeta.removeFromDisk
      rw [hnone]
    rw [if_neg fun h => hfit h.2, hsame, FSMeta.setItem_d, Dict.get?_set]

omit [DecidableEq H] in
theorem NextNumber.unique {k k' : Nat} (h : NextNumber s k) (h' : NextNumber s k') : k = k' := by
  obtain ⟨m, hm, rfl⟩ := h
  obtain ⟨m', hm', rfl⟩ := h'
  rw [hm] at hm'
  cases hm'
  rfl

/-- The state in which the copy loop starts. -/
def withCopy (s : Fs H) (tempIno : Nat) (f : FileInode H) : Fs H :=
  { s with inodes := s.inodes.setItem tempIno (emptied f) }

/-- No call of a truncation raises, the number of the copy has a key, and the copy gets the size. -/
structure Truncates (φ : Faults H) (cfg : Config) (P : Packages H) (env : CallEnv H) (fh : Nat)
    (f : FileInode H) (n : Nat) (s : Fs H) (tempIno : Nat) : Prop where
  key : tempIno < 256 ^ 64
  returns : ∃ s₁ s₂ t,
    copyBlocksUnder φ cfg P (env.clock 0) fh tempIno n 0 f.data 0 (withCopy s tempIno f) = (.ok (), s₁) ∧
    dropBlocksUnder φ cfg env.clock (env.order.run f.data) s₁ = (.ok (), s₂) ∧
    s₁.inodes.d.get? tempIno = some t ∧ t.size = n

omit [DecidableEq H] in
theorem temp_ne (hf : s.inodes.d.get? fh = some f) (hfresh : s.inodes.d.get? tempIno = none) :
    tempIno ≠ fh := fun e => by
  rw [e, hf] at hfresh
  cases hfresh

omit [DecidableEq H] in
theorem CopyFrame.start (hf : s.inodes.d.get? fh = some f)
    (hfresh : s.inodes.d.get? tempIno = none) : CopyFrame s fh tempIno f 0 (withCopy s tempIno f) :=
  ⟨⟨f, (Dict.get?_set_ne _ _ (temp_ne hf hfresh)).trans hf, .refl f⟩,
    ⟨emptied f, Dict.get?_set_self _ _ _, rfl⟩, fun _ _ hk => Dict.get?_set_ne _ _ fun e => hk e.symm⟩

/-- **The `try` block**: it ends with the copy under its number, or puts the copy in the place of the
file when no call raises. -/
theorem fillCopyUnder_cases (φ : Faults H) (cfg : Config) (P : Packages H) (hf : s.inodes.d.get? fh = some f)
    (hfresh : s.inodes.d.get? tempIno = none) (env : CallEnv H) (n : Nat) :
    ∃ offset s₁, CopyFrame s fh tempIno f offset s₁ ∧
      ((¬ Truncates φ cfg P env fh f n s tempIno ∧
          ∃ e, fillCopyUnder φ cfg P env fh tempIno n (withCopy s tempIno f) = (.error e, s₁)) ∨
        ∃ t, s₁.inodes.d.get? tempIno = some t ∧
          (Truncates φ cfg P env fh f n s tempIno ↔ tempIno < 256 ^ 64 ∧ t.size = n) ∧
          fillCopyUnder φ cfg P env fh tempIno n (withCopy s tempIno f) =
            (.ok (), { s₁ with inodes := ((s₁.inodes.setItem fh t).delItem tempIno).2 })) := by
  have hstart := CopyFrame.start hf hfresh
  obtain ⟨f₀, hf₀, honly₀⟩ := hstart.file
  obtain ⟨offset, hframe⟩ : ∃ offset, CopyFrame s fh tempIno f offset
      (copyBlocksUnder φ cfg P (env.clock 0) fh tempIno n 0 f.data 0 (withCopy s tempIno f)).2 :=
    copyBlocksUnder_frame (temp_ne hf hfresh) (env.clock 0) n f.data 0 0 _ hstart
  unfold fillCopyUnder
  rw [Py.run_bind_ok (inodeAt_run hf₀), honly₀.data]
  cases hloop : copyBlocksUnder φ cfg P (env.clock 0) fh tempIno n 0 f.data 0 (withCopy s tempIno f) with
  | mk r s₁ =>
    rw [hloop] at hframe
    obtain ⟨f₁, hf₁, honly⟩ := hframe.file
    cases r with
    | error e =>
      refine ⟨offset, s₁, hframe, .inl ⟨fun h => ?_, e, Py.run_bind_error hloop⟩⟩
      obtain ⟨_, _, _, hloop', _⟩ := h.returns
      rw [hloop] at hloop'
      cases hloop'
    | ok _ =>
      rw [Py.run_bind_ok hloop]
      unfold replaceInodeUnder
      rw [Py.run_bind_ok (inodeAt_run hf₁), honly.data]
      have hinodes : (dropBlocksUnder φ cfg env.clock (env.order.run f.data) s₁).2.inodes = s₁.inodes :=
        dropBlocksUnder_inodes _ _ s₁
      cases hdrops : dropBlocksUnder φ cfg env.clock (env.order.run f.data) s₁ with
      | mk r s₂ =>
        rw [hdrops] at hinodes
        dsimp only at hinodes
        have hframe₂ : CopyFrame s fh tempIno f offset s₂ :=
          ⟨by rw [hinodes]; exact hframe.file, by rw [hinodes]; exact hframe.copy,
            fun k => by rw [hinodes]; exact hframe.others k⟩
        obtain ⟨t, ht, _⟩ := hframe₂.copy
        cases r with
        | error e =>
          refine ⟨offset, s₂, hframe₂, .inl ⟨fun h => ?_, e, Py.run_bind_error hdrops⟩⟩
          obtain ⟨_, _, _, hloop', hdrops', _⟩ := h.returns
          rw [hloop] at hloop'
          cases hloop'
          rw [hdrops] at hdrops'
          cases hdrops'
        | ok _ =>
          have ht₁ : s₁.inodes.d.get? tempIno = some t := by rw [← hinodes, ht]
          refine ⟨offset, s₂, hframe₂, .inr ⟨t, ht, ⟨fun h => ⟨h.key, ?_⟩, fun h => ⟨h.1, s₁, s₂, t,
            hloop, hdrops, ht₁, h.2⟩⟩, (Py.run_bind_ok hdrops).trans (takePlace_run ht)⟩⟩
          obtain ⟨_, _, t', hloop', _, ht', hn⟩ := h.returns
          rw [hloop] at hloop'
          cases hloop'
          rw [ht₁] at ht'
          cases ht'
          exact hn

/-- **A truncation returns in any case**; the file has the size and no inode is added exactly if no
call raises. -/
theorem truncateDownUnder_cases (φ : Faults H) (cfg : Config) (P : Packages H)
    (hf : s.inodes.d.get? fh = some f) (env : CallEnv H) (n : Nat) :
    ∃ tempIno s' f', NextNumber s tempIno ∧
      truncateDownUnder φ cfg P env fh n s = (.ok (), s') ∧ s'.inodes.d.get? fh = some f' ∧
      (Truncates φ cfg P env fh f n s tempIno ↔
        f'.size = n ∧ ∀ k, s'.inodes.d.contains k = true → s.inodes.d.contains k = true) := by
  obtain ⟨tempIno, hnext, hcopy⟩ := copyInode_run hf
  have hfresh := hnext.unused
  have hne := temp_ne hf hfresh
  -- a copy that stays is under a number that was not in use
  have hstays : ∀ s' : Fs H, (∃ t, s'.inodes.d.get? tempIno = some t) →
      ¬ ∀ k, s'.inodes.d.contains k = true → s.inodes.d.contains k = true := by
    intro s' ht hadded
    obtain ⟨f₀, hf₀⟩ := (Dict.contains_iff _).mp (hadded tempIno ((Dict.contains_iff _).mpr ht))
    rw [hfresh] at hf₀
    cases hf₀
  unfold truncateDownUnder
  rw [Py.run_bind_ok hcopy]
  obtain ⟨offset, s₁, hframe, ⟨hno, e, hrun⟩ | ⟨t, ht, hiff, hrun⟩⟩ :=
    fillCopyUnder_cases φ cfg P hf hfresh env n
  · obtain ⟨f₁, hf₁, _⟩ := hframe.file
    obtain ⟨t, ht, _⟩ := hframe.copy
    exact ⟨tempIno, s₁, f₁, hnext, Py.run_attempt_error hrun, hf₁,
      ⟨fun h => absurd h hno, fun h => absurd h.2 (hstays s₁ ⟨t, ht⟩)⟩⟩
  · have htable := @takePlace_get? H fh tempIno s₁.inodes t ht hne
    have hnew : ((s₁.inodes.setItem fh t).delItem tempIno).2.d.get? fh = some t := by
      rw [htable, if_neg fun h => hne h.1, if_pos rfl]
    refine ⟨tempIno, _, t, hnext, Py.run_attempt_ok hrun, hnew, hiff.trans ?_⟩
    constructor
    · rintro ⟨hfit, hn⟩
      refine ⟨hn, fun k hk => ?_⟩
      obtain ⟨f', hf'⟩ := (Dict.contains_iff _).mp hk
      rw [htable] at hf'
      split at hf'
      · cases hf'
      · rename_i hkt
        by_cases hkf : k = fh
        · exact (Dict.contains_iff _).mpr ⟨f, by rw [hkf, hf]⟩
        · rw [if_neg fun e => hkf e.symm, hframe.others k hkf fun e => hkt ⟨e.symm, hfit⟩] at hf'
          exact (Dict.contains_iff _).mpr ⟨f', hf'⟩
    · rintro ⟨hn, hadded⟩
      refine ⟨?_, hn⟩
      by_contra hfit
      refine hstays _ ⟨t, ?_⟩ hadded
      rw [htable, if_neg fun h => hfit h.2, if_neg fun e => hne e.symm, ht]

end

end VeratyFS
