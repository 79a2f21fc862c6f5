import VeratyFS.DurableInodes
import VeratyFS.ModuleState
import VeratyFS.Session
import VeratyFS.Lib.Observed

/-!
# Clean-ups

`forget` and `release` once more, with the calls of `update_index(add=False)` that they make: the
inode whose blocks are given up, and the hash of the block.

* `CleanUp.removeInode` to `CleanUp.release` — the handlers; `forget_cleanUp_follows`,
  `release_cleanUp_follows`: what is observed is what they do.
* `callsOf` — the calls for one inode.
* `CleanedAt` — what a clean-up leaves of an inode: without links, it goes with one call for each of
  its blocks, and else it stays without a call.
* `FSMeta.reclaims` — every inode that a `forget` cleans up still has its parent then.
* `forget_cleans`, `release_cleans` — under that condition the handlers clean up.
-/

set_option autoImplicit false

namespace VeratyFS

open Pylib

/-- An operation of the file system, observed at its calls of `update_index(add=False)`. -/
abbrev CleanUp (H α : Type) := Py PyError (Observed (Fs H) (Nat × H)) α

variable {H : Type} [DecidableEq H] {cfg : Config}

namespace CleanUp

/-- No call of `update_index(add=False)`. -/
def quiet {H α : Type} (m : Op H α) : CleanUp H α := Py.quiet m

/-- The loop of `_remove` over the blocks of an inode. -/
def dropBlocks (cfg : Config) (clock : Nat → Time) (stIno : Nat) (blocks : List (FileBlock H)) :
    CleanUp H Unit :=
  Py.within Fs.globals (fun g s => { s with globals := g })
    (Py.forEach (fun i => Py.noting (fun _ => (stIno, i.1.hash))
      (updateIndexRemove cfg (clock i.2) i.1.hash)) blocks.zipIdx)

def removeInode (cfg : Config) (clock : Nat → Time) (inodeP : Nat) (name : Bytes) (stIno : Nat) :
    CleanUp H Unit := do
  let p ← quiet (inodeAt inodeP)
  if p.inode ≠ inodeP ∧ p.parentInode = inodeP ∧ p.name ≠ name then
    Py.raise (.fuseError .ENOTEMPTY)
  else
    Py.attempt
      (do
        let f ← quiet (inodeAt stIno)
        dropBlocks cfg clock stIno f.data
        quiet (delInode stIno))
      (fun e => if e = .keyError then return () else Py.raise e)

def forgetOne (cfg : Config) (clock : Nat → Time) (inode nlookup : Nat) : CleanUp H Unit :=
  Py.attempt
    (do
      let i ← quiet (inodeAt inode)
      if i.inode ≠ ROOT_INODE then
        quiet (setInode inode { i with lookupCount := i.lookupCount - nlookup })
        if i.stNlink ≤ 0 then
          let entry ← quiet (getattr inode)
          removeInode cfg clock i.parentInode i.name entry.stIno
        else
          return ()
      else
        quiet (setInode inode { i with lookupCount := 1 }))
    (fun _ => return ())

def forget (cfg : Config) (clock : Nat → Nat → Time) (inodeList : List (Nat × Nat)) :
    CleanUp H Unit := do
  Py.forEach (fun n => forgetOne cfg (clock n.2) n.1.1 n.1.2) inodeList.zipIdx
  quiet commitInodes

def removeUnlinked (cfg : Config) (clock : Nat → Time) (fh : Nat) : CleanUp H Unit := do
  let i ← quiet (inodeAt fh)
  if i.stNlink = 0 then
    let entry ← quiet (getattr fh)
    removeInode cfg clock i.parentInode i.name entry.stIno
  else
    return ()

def onFs {H α : Type} (m : CleanUp H α) : Py PyError (Observed (Vfs H) (Nat × H)) α :=
  Py.within Vfs.fs (fun s v => { v with fs := s }) m

def release (cfg : Config) (clock : Nat → Time) (fh : Nat) :
    Py PyError (Observed (Vfs H) (Nat × H)) Unit := do
  Py.quiet (Vfs.addOpen fh (-1))
  let v ← Py.quiet Py.read
  if v.openCount fh = 0 then
    Py.quiet (Py.modify fun v => { v with inodeOpenCount := v.inodeOpenCount.erase fh })
    onFs (removeUnlinked cfg clock fh)
    onFs (quiet commitInodes)
  else
    onFs (quiet commitInodes)

end CleanUp

/-! ## What is observed is what is done -/

section

open Py

theorem removeInode_cleanUp_follows (cfg : Config) (clock : Nat → Time) (inodeP : Nat) (name : Bytes)
    (stIno : Nat) : Follows (CleanUp.removeInode cfg clock inodeP name stIno)
      (removeInode (H := H) cfg clock inodeP name stIno) := by
  refine follows_bind (follows_quiet _) fun p => ?_
  split
  · exact follows_raise _
  · refine follows_attempt (follows_bind (follows_quiet _) fun f => ?_) fun e => ?_
    · refine follows_bind (follows_within ?_) fun _ => follows_quiet _
      exact follows_forEach fun _ => follows_noting _ _
    · split
      · exact follows_pure _
      · exact follows_raise _

theorem forget_cleanUp_follows (cfg : Config) (clock : Nat → Nat → Time) (l : List (Nat × Nat)) :
    Follows (CleanUp.forget cfg clock l) (forget (H := H) cfg clock l) := by
  refine follows_bind (follows_forEach fun n => ?_) fun _ => follows_quiet _
  refine follows_attempt (follows_bind (follows_quiet _) fun f => ?_) fun _ => follows_pure _
  split
  · refine follows_bind (follows_quiet _) fun _ => ?_
    split
    · exact follows_bind (follows_quiet _) fun _ => removeInode_cleanUp_follows cfg _ _ _ _
    · exact follows_pure _
  · exact follows_quiet _

theorem removeUnlinked_cleanUp_follows (cfg : Config) (clock : Nat → Time) (fh : Nat) :
    Follows (CleanUp.removeUnlinked cfg clock fh) (Vfs.removeUnlinked (H := H) cfg clock fh) := by
  refine follows_bind (follows_quiet _) fun f => ?_
  split
  · exact follows_bind (follows_quiet _) fun _ => removeInode_cleanUp_follows cfg _ _ _ _
  · exact follows_pure _

theorem release_cleanUp_follows (cfg : Config) (clock : Nat → Time) (fh : Nat) :
    Follows (CleanUp.release cfg clock fh) (Vfs.release (H := H) cfg clock fh) := by
  refine follows_bind (follows_quiet _) fun _ => ?_
  refine follows_bind (follows_quiet _) fun v => ?_
  split
  · refine follows_bind (follows_quiet _) fun _ => ?_
    refine follows_bind (follows_within (removeUnlinked_cleanUp_follows cfg clock fh)) fun _ => ?_
    exact follows_within (follows_quiet _)
  · exact follows_within (follows_quiet _)

end

/-! ## The calls for one inode -/

/-- The hashes given up for an inode. -/
def callsOf {H : Type} (k : Nat) (l : List (Nat × H)) : List H :=
  (l.filter fun c => c.1 = k).map Prod.snd

/-- The calls for the blocks of an inode. -/
def blockCalls {H : Type} (k : Nat) (bs : List (FileBlock H)) : List (Nat × H) :=
  bs.map fun b => (k, b.hash)

omit [DecidableEq H] in
theorem callsOf_append (k : Nat) (l l' : List (Nat × H)) :
    callsOf k (l ++ l') = callsOf k l ++ callsOf k l' := by
  unfold callsOf
  rw [List.filter_append, List.map_append]

omit [DecidableEq H] in
theorem callsOf_blockCalls (k x : Nat) (bs : List (FileBlock H)) :
    callsOf k (blockCalls x bs) = if x = k then bs.map FileBlock.hash else [] := by
  unfold callsOf blockCalls
  split
  · rename_i h
    rw [List.filter_eq_self.mpr (by simp [h]), List.map_map]
    rfl
  · rename_i h
    rw [List.filter_eq_nil_iff.mpr (by simp [h])]
    rfl

/-! ## What a clean-up leaves of an inode -/

/-- If the inode is hit, and has no link, it goes with one call for each of its blocks; else it stays
without a call. -/
structure CleanedAt (k : Nat) (hit : Prop) (o o' : Observed (Fs H) (Nat × H)) : Prop where
  absent : o.state.inodes.d.get? k = none →
    o'.state.inodes.d.get? k = none ∧ callsOf k o'.seen = callsOf k o.seen
  kept : ∀ f, o.state.inodes.d.get? k = some f → ¬ (hit ∧ k ≠ ROOT_INODE ∧ f.stNlink ≤ 0) →
    (∃ c, o'.state.inodes.d.get? k = some { f with lookupCount := c }) ∧
      callsOf k o'.seen = callsOf k o.seen
  gone : ∀ f, o.state.inodes.d.get? k = some f → hit ∧ k ≠ ROOT_INODE ∧ f.stNlink ≤ 0 →
    o'.state.inodes.d.get? k = none ∧
      callsOf k o'.seen = callsOf k o.seen ++ f.data.map FileBlock.hash

namespace CleanedAt

variable {k : Nat} {hit hit' : Prop} {o o₁ o₂ : Observed (Fs H) (Nat × H)}

omit [DecidableEq H] in
/-- An inode that is not hit. -/
theorem of_recounted (hno : ∀ f, o.state.inodes.d.get? k = some f →
      ¬ (hit ∧ k ≠ ROOT_INODE ∧ f.stNlink ≤ 0))
    (habsent : o.state.inodes.d.get? k = none → o₁.state.inodes.d.get? k = none)
    (hkept : ∀ f, o.state.inodes.d.get? k = some f →
      ∃ c, o₁.state.inodes.d.get? k = some { f with lookupCount := c })
    (hseen : callsOf k o₁.seen = callsOf k o.seen) : CleanedAt k hit o o₁ :=
  ⟨fun h => ⟨habsent h, hseen⟩, fun f hf _ => ⟨hkept f hf, hseen⟩, fun f hf h => absurd h (hno f hf)⟩

omit [DecidableEq H] in
theorem refl (k : Nat) (o : Observed (Fs H) (Nat × H)) : CleanedAt k False o o :=
  of_recounted (fun _ _ h => h.1) id (fun f hf => ⟨f.lookupCount, hf⟩) rfl

omit [DecidableEq H] in
theorem trans (h : CleanedAt k hit o o₁) (h' : CleanedAt k hit' o₁ o₂) :
    CleanedAt k (hit ∨ hit') o o₂ := by
  refine ⟨fun hk => ?_, fun f hf hno => ?_, fun f hf hyes => ?_⟩
  · obtain ⟨hk₁, hseen⟩ := h.absent hk
    obtain ⟨hk₂, hseen'⟩ := h'.absent hk₁
    exact ⟨hk₂, hseen'.trans hseen⟩
  · obtain ⟨⟨c, hc⟩, hseen⟩ := h.kept f hf fun hh => hno ⟨.inl hh.1, hh.2⟩
    obtain ⟨⟨c', hc'⟩, hseen'⟩ := h'.kept _ hc fun hh => hno ⟨.inr hh.1, hh.2⟩
    exact ⟨⟨c', hc'⟩, hseen'.trans hseen⟩
  · by_cases hhit : hit
    · obtain ⟨hk₁, hseen⟩ := h.gone f hf ⟨hhit, hyes.2⟩
      obtain ⟨hk₂, hseen'⟩ := h'.absent hk₁
      exact ⟨hk₂, hseen'.trans hseen⟩
    · obtain ⟨⟨c, hc⟩, hseen⟩ := h.kept f hf fun hh => hhit hh.1
      obtain ⟨hk₂, hseen'⟩ := h'.gone _ hc ⟨hyes.1.resolve_left hhit, hyes.2⟩
      exact ⟨hk₂, hseen'.trans (congrArg (· ++ _) hseen)⟩

omit [DecidableEq H] in
theorem congr (h : CleanedAt k hit o o₁) (hiff : hit ↔ hit') : CleanedAt k hit' o o₁ :=
  propext hiff ▸ h

end CleanedAt

omit [DecidableEq H] in
/-- The inodes that stay keep their numbers. -/
theorem SelfNumbered.cleaned {hit : Nat → Prop} {o o' : Observed (Fs H) (Nat × H)}
    (hs : SelfNumbered o.state.inodes) (h : ∀ k, CleanedAt k (hit k) o o') :
    SelfNumbered o'.state.inodes := by
  intro k g hg
  cases hk : o.state.inodes.d.get? k with
  | none =>
    rw [((h k).absent hk).1] at hg
    cases hg
  | some f =>
    by_cases hgone : hit k ∧ k ≠ ROOT_INODE ∧ f.stNlink ≤ 0
    · rw [((h k).gone f hk hgone).1] at hg
      cases hg
    · obtain ⟨⟨c, hc⟩, _⟩ := (h k).kept f hk hgone
      rw [hc] at hg
      cases hg
      exact hs k f hk

/-! ## The drops -/

/-- No drop raises when every chunk has a free list. -/
theorem updateIndexRemove_ok {g : Globals H} (hp : Placed g) (now : Time) (h : H) :
    (updateIndexRemove cfg now h g).1 = .ok () := by
  cases hb : g.hashTable.d.get? h with
  | none => rw [updateIndexRemove_unknown cfg now hb]
  | some b =>
    obtain ⟨g', hrun, _⟩ := updateIndexRemove_run cfg now hb (hp.entries h b hb)
    rw [hrun]

theorem dropBlocks_calls (cfg : Config) (clock : Nat → Time) (k : Nat) :
    ∀ (bs : List (FileBlock H)) (n : Nat) {o : Observed (Globals H) (Nat × H)},
      Placed o.state ∧ Remembered o.state →
      ∃ g', Py.forEach (fun i : FileBlock H × Nat => Py.noting (fun _ => (k, i.1.hash))
          (updateIndexRemove cfg (clock i.2) i.1.hash)) (bs.zipIdx n) o =
        (.ok (), ⟨g', o.seen ++ blockCalls k bs⟩) ∧ Placed g' ∧ Remembered g'
  | [], _, o, hg => ⟨o.state, by rw [blockCalls, List.map_nil, List.append_nil]; rfl, hg⟩
  | b :: bs, n, o, hg => by
    have hone : Py.noting (fun _ => (k, b.hash)) (updateIndexRemove cfg (clock n) b.hash) o =
        (.ok (), ⟨(updateIndexRemove cfg (clock n) b.hash o.state).2, o.seen ++ [(k, b.hash)]⟩) :=
      Py.noting_run (Prod.ext (updateIndexRemove_ok hg.1 (clock n) b.hash) rfl)
    obtain ⟨g', hrun, hg'⟩ := dropBlocks_calls cfg clock k bs (n + 1)
      (o := ⟨(updateIndexRemove cfg (clock n) b.hash o.state).2, o.seen ++ [(k, b.hash)]⟩)
      ((placed_preserved cfg).drop (clock n) b.hash hg)
    refine ⟨g', ?_, hg'⟩
    rw [List.zipIdx_cons]
    refine (Py.run_bind_ok (f := fun _ => Py.forEach _ _) hone).trans (hrun.trans ?_)
    rw [List.append_assoc]
    rfl

/-! ## Removals -/

omit [DecidableEq H] in
theorem CleanUp.quiet_run {α : Type} {m : Op H α} {o : Observed (Fs H) (Nat × H)}
    {r : Except PyError α} {s : Fs H} (h : m o.state = (r, s)) :
    CleanUp.quiet m o = (r, ⟨s, o.seen⟩) := Py.quiet_run h

variable {o : Observed (Fs H) (Nat × H)} {clock : Nat → Time} {k : Nat} {f : FileInode H}

/-- **`_remove`** of an inode whose parent is there. -/
theorem removeInode_calls (cfg : Config) (clock : Nat → Time) (hs : SelfNumbered o.state.inodes)
    (hg : Placed o.state.globals ∧ Remembered o.state.globals) {p : Nat} (name : Bytes)
    (hp : ∃ g, o.state.inodes.d.get? p = some g) (hk : o.state.inodes.d.get? k = some f) :
    ∃ g', CleanUp.removeInode cfg clock p name k o =
        (.ok (), ⟨⟨(o.state.inodes.delItem k).2, g'⟩, o.seen ++ blockCalls k f.data⟩) ∧
      Placed g' ∧ Remembered g' := by
  obtain ⟨g, hp⟩ := hp
  obtain ⟨g', hdrops, hg'⟩ := dropBlocks_calls cfg clock k f.data 0
    (o := ⟨o.state.globals, o.seen⟩) hg
  refine ⟨g', ?_, hg'⟩
  have hwithin : CleanUp.dropBlocks cfg clock k f.data o =
      (.ok (), ⟨{ o.state with globals := g' }, o.seen ++ blockCalls k f.data⟩) := by
    unfold CleanUp.dropBlocks Py.within Py.zoom
    rw [hdrops]
  have hdel : CleanUp.quiet (delInode k)
      (⟨{ o.state with globals := g' }, o.seen ++ blockCalls k f.data⟩ : Observed (Fs H) (Nat × H)) =
      (.ok (), ⟨⟨(o.state.inodes.delItem k).2, g'⟩, o.seen ++ blockCalls k f.data⟩) :=
    CleanUp.quiet_run (delInode_run ((Dict.contains_iff _).mpr ⟨f, hk⟩))
  unfold CleanUp.removeInode
  rw [Py.run_bind_ok (CleanUp.quiet_run (inodeAt_run hp)), if_neg fun h => h.1 (hs p g hp)]
  refine Py.run_attempt_ok ((Py.run_bind_ok (CleanUp.quiet_run (inodeAt_run hk))).trans ?_)
  exact (Py.run_bind_ok hwithin).trans hdel

omit [DecidableEq H] in
/-- An inode without links is taken out, after a call for each of its blocks. -/
theorem CleanedAt.removed {o' : Observed (Fs H) (Nat × H)} (hk : o.state.inodes.d.get? k = some f)
    (hroot : k ≠ ROOT_INODE) (hlinks : f.stNlink ≤ 0) (hgone : o'.state.inodes.d.get? k = none)
    (hothers : ∀ x, k ≠ x → o'.state.inodes.d.get? x = o.state.inodes.d.get? x)
    (hseen : o'.seen = o.seen ++ blockCalls k f.data) (x : Nat) : CleanedAt x (k = x) o o' := by
  have hcalls : callsOf x o'.seen =
      callsOf x o.seen ++ if k = x then f.data.map FileBlock.hash else [] := by
    rw [hseen, callsOf_append, callsOf_blockCalls]
  by_cases hx : k = x
  · subst hx
    rw [if_pos rfl] at hcalls
    refine ⟨fun h => ?_, fun g hg hno => ?_, fun g hg _ => ?_⟩
    · rw [hk] at h
      cases h
    · rw [hk] at hg
      cases hg
      exact absurd ⟨rfl, hroot, hlinks⟩ hno
    · rw [hk] at hg
      cases hg
      exact ⟨hgone, hcalls⟩
  · rw [if_neg hx, List.append_nil] at hcalls
    have hsame := hothers x hx
    exact of_recounted (fun _ _ h => hx h.1) (fun h => hsame.trans h)
      (fun g hg => ⟨g.lookupCount, hsame.trans hg⟩) hcalls

/-- What a clean-up of an inode needs: its parent is there, and its number fits the database. -/
structure Removable (t : FSMeta H) (k : Nat) (f : FileInode H) : Prop where
  parent : ∃ g, t.d.get? f.parentInode = some g
  fits : k < 256 ^ 64

/-- **A round of `forget`** cleans up. -/
theorem forgetOne_cleans (clock : Nat → Time) (hs : SelfNumbered o.state.inodes)
    (hg : Placed o.state.globals ∧ Remembered o.state.globals) (n : Nat)
    (hready : ∀ f, o.state.inodes.d.get? k = some f → k ≠ ROOT_INODE → f.stNlink ≤ 0 →
      Removable o.state.inodes k f) :
    ∃ o', CleanUp.forgetOne cfg clock k n o = (.ok (), o') ∧ (∀ x, CleanedAt x (k = x) o o') ∧
      Placed o'.state.globals ∧ Remembered o'.state.globals := by
  unfold CleanUp.forgetOne
  rw [Py.attempt_pass]
  cases hk : o.state.inodes.d.get? k with
  | none =>
    rw [Py.run_bind_error (CleanUp.quiet_run (inodeAt_missing hk))]
    refine ⟨o, rfl, fun x => .of_recounted (fun f hf h => ?_) id (fun f hf => ⟨_, hf⟩) rfl, hg⟩
    rw [← h.1, hk] at hf
    cases hf
  | some f =>
    -- a count is set, and the inode stays
    have hrecount : ∀ c : Int, (k = ROOT_INODE ∨ 0 < f.stNlink) → ∀ x, CleanedAt x (k = x) o
        ⟨o.state.withInodes (o.state.inodes.setItem k { f with lookupCount := c }), o.seen⟩ := by
      intro c hstays x
      refine .of_recounted (fun g hg h => ?_) (recount_get? c hk x).1 (recount_get? c hk x).2 rfl
      rw [← h.1, hk] at hg
      cases hg
      rcases hstays with hroot | hlinks
      · exact h.2.1 (h.1 ▸ hroot)
      · omega
    have hself := hs k f hk
    rw [Py.run_bind_ok (CleanUp.quiet_run (inodeAt_run hk))]
    by_cases hroot : k = ROOT_INODE
    · rw [if_neg (not_not_intro (hself.trans hroot))]
      exact ⟨_, rfl, hrecount 1 (.inl hroot), hg⟩
    · rw [if_pos fun h => hroot (hself.symm.trans h)]
      let o₁ : Observed (Fs H) (Nat × H) :=
        ⟨o.state.withInodes (o.state.inodes.setItem k (f.forgotten n)), o.seen⟩
      have hset : CleanUp.quiet (setInode k { f with lookupCount := f.lookupCount - n }) o = (.ok (), o₁) :=
        CleanUp.quiet_run rfl
      rw [Py.run_bind_ok hset]
      by_cases hlinks : f.stNlink ≤ 0
      · rw [if_pos hlinks]
        obtain ⟨hparent, hfits⟩ := hready f hk hroot hlinks
        have hget : ∀ x, o₁.state.inodes.d.get? x =
            if k = x then some (f.forgotten n) else o.state.inodes.d.get? x :=
          fun x => o.state.inodes.setItem_d_get? k x _
        have hk₁ : o₁.state.inodes.d.get? k = some (f.forgotten n) := (hget k).trans (if_pos rfl)
        have hs₁ : SelfNumbered o₁.state.inodes := hs.moves ((TableMoves.refl _).set hself)
        have hparent₁ : ∃ g, o₁.state.inodes.d.get? f.parentInode = some g := by
          rw [hget]
          split
          · exact ⟨_, rfl⟩
          · exact hparent
        obtain ⟨g', hrun, hg'⟩ := removeInode_calls cfg clock hs₁ hg f.name hparent₁ hk₁
        refine ⟨⟨⟨(o₁.state.inodes.delItem k).2, g'⟩, o₁.seen ++ blockCalls k f.data⟩, ?_, ?_, hg'⟩
        · rw [Py.run_bind_ok (CleanUp.quiet_run (getattr_run hk₁))]
          exact congrArg (fun r => (Except.ok (), Prod.snd r)) hrun
        · have hdel := FSMeta.delItem_d_get?_of_fits (toBytes_isSome.mpr hfits)
            ((Dict.contains_iff _).mpr ⟨_, hk₁⟩)
          refine .removed hk hroot hlinks ((hdel k).trans (if_pos rfl)) (fun x hx => ?_) rfl
          exact (hdel x).trans ((if_neg hx).trans ((hget x).trans (if_neg hx)))
      · rw [if_neg hlinks]
        exact ⟨o₁, rfl, hrecount _ (.inr (by omega)), hg⟩

/-! ## `forget` -/

namespace FSMeta

/-- The inode is in the table, and still there when the inodes in `before` were forgotten. -/
def stays (t : FSMeta H) (before : List Nat) (p : Nat) : Bool :=
  match t.d.get? p with
  | some g => decide (p ∉ before) || decide (p = ROOT_INODE) || decide (0 < g.stNlink)
  | none => false

/-- The inode needs no clean-up, or can be cleaned up when the inodes in `before` were forgotten. -/
def reclaimsOne (t : FSMeta H) (before : List Nat) (k : Nat) : Bool :=
  match t.d.get? k with
  | some f => decide (k = ROOT_INODE) || decide (0 < f.stNlink) || decide (k ∈ before) ||
    t.stays before f.parentInode && decide (k < 256 ^ 64)
  | none => true

/-- Each inode of a `forget` that has no link can be cleaned up in its round. -/
def reclaims (t : FSMeta H) : List Nat → List Nat → Bool
  | _, [] => true
  | before, k :: l => t.reclaimsOne before k && t.reclaims (k :: before) l

end FSMeta

omit [DecidableEq H] in
/-- What the check of one inode says about the table once those in `before` were forgotten. -/
theorem FSMeta.removable {o₀ : Observed (Fs H) (Nat × H)} {before : List Nat}
    (hclean : ∀ x, CleanedAt x (x ∈ before) o₀ o)
    (hone : o₀.state.inodes.reclaimsOne before k = true) (hk : o.state.inodes.d.get? k = some f)
    (hroot : k ≠ ROOT_INODE) (hlinks : f.stNlink ≤ 0) : Removable o.state.inodes k f := by
  cases hk₀ : o₀.state.inodes.d.get? k with
  | none =>
    rw [((hclean k).absent hk₀).1] at hk
    cases hk
  | some f₀ =>
    by_cases hgone : k ∈ before ∧ k ≠ ROOT_INODE ∧ f₀.stNlink ≤ 0
    · rw [((hclean k).gone f₀ hk₀ hgone).1] at hk
      cases hk
    · obtain ⟨⟨c, hc⟩, _⟩ := (hclean k).kept f₀ hk₀ hgone
      rw [hc] at hk
      cases hk
      have hbefore : k ∉ before := fun h => hgone ⟨h, hroot, hlinks⟩
      unfold reclaimsOne at hone
      rw [hk₀] at hone
      dsimp only at hone
      rw [decide_eq_false hroot, decide_eq_false (Int.not_lt.mpr hlinks), decide_eq_false hbefore,
        Bool.false_or, Bool.false_or, Bool.false_or, Bool.and_eq_true, decide_eq_true_eq] at hone
      refine ⟨?_, hone.2⟩
      have hstays := hone.1
      unfold stays at hstays
      cases hp : o₀.state.inodes.d.get? f₀.parentInode with
      | none =>
        rw [hp] at hstays
        cases hstays
      | some g =>
        rw [hp] at hstays
        dsimp only at hstays
        rw [Bool.or_eq_true, Bool.or_eq_true, decide_eq_true_eq, decide_eq_true_eq,
          decide_eq_true_eq] at hstays
        have hkept : ¬ (f₀.parentInode ∈ before ∧ f₀.parentInode ≠ ROOT_INODE ∧ g.stNlink ≤ 0) := by
          rintro ⟨hmem, hnot, hle⟩
          rcases hstays with (h | h) | h
          · exact h hmem
          · exact hnot h
          · omega
        obtain ⟨⟨c', hc'⟩, _⟩ := (hclean _).kept g hp hkept
        exact ⟨_, hc'⟩

/-- **The rounds of `forget`** clean up all inodes of the list. -/
theorem forgetRounds_clean (cfg : Config) (clock : Nat → Nat → Time) {o₀ : Observed (Fs H) (Nat × H)}
    (hs : SelfNumbered o₀.state.inodes) : ∀ (l : List (Nat × Nat)) (i : Nat) {before : List Nat}
    {o : Observed (Fs H) (Nat × H)}, (∀ x, CleanedAt x (x ∈ before) o₀ o) →
    Placed o.state.globals ∧ Remembered o.state.globals →
    o₀.state.inodes.reclaims before (l.map Prod.fst) = true →
    ∃ o', Py.forEach (fun n => CleanUp.forgetOne cfg (clock n.2) n.1.1 n.1.2) (l.zipIdx i) o =
        (.ok (), o') ∧ (∀ x, CleanedAt x (x ∈ before ∨ x ∈ l.map Prod.fst) o₀ o') ∧
      Placed o'.state.globals ∧ Remembered o'.state.globals
  | [], _, before, o, hclean, hg, _ =>
    ⟨o, rfl, fun x => (hclean x).congr (by simp), hg⟩
  | n :: l, i, before, o, hclean, hg, hall => by
    rw [List.map_cons, FSMeta.reclaims, Bool.and_eq_true] at hall
    obtain ⟨o₁, hrun, hone, hg₁⟩ := forgetOne_cleans (clock i) (hs.cleaned hclean) hg n.2
      fun f hf hroot hlinks => FSMeta.removable hclean hall.1 hf hroot hlinks
    have hclean₁ : ∀ x, CleanedAt x (x ∈ n.1 :: before) o₀ o₁ := fun x =>
      ((hclean x).trans (hone x)).congr (by rw [List.mem_cons, or_comm, eq_comm])
    obtain ⟨o', hrest, hclean', hg'⟩ := forgetRounds_clean cfg clock hs l (i + 1) hclean₁ hg₁ hall.2
    refine ⟨o', ?_, fun x => (hclean' x).congr ?_, hg'⟩
    · rw [List.zipIdx_cons]
      exact (Py.run_bind_ok (f := fun _ => Py.forEach _ _) hrun).trans hrest
    · rw [List.map_cons, List.mem_cons, List.mem_cons, or_assoc, or_left_comm]

omit [DecidableEq H] in
/-- A commit changes no inode. -/
theorem CleanedAt.commit {hit : Prop} {o₁ : Observed (Fs H) (Nat × H)} (h : CleanedAt k hit o o₁) :
    CleanedAt k hit o ⟨o₁.state.withInodes o₁.state.inodes.commit, o₁.seen⟩ := by
  refine ⟨fun hk => ?_, fun f hf hno => ?_, fun f hf hyes => ?_⟩ <;>
    rw [Fs.withInodes_inodes, FSMeta.commit_d]
  · exact h.absent hk
  · exact h.kept f hf hno
  · exact h.gone f hf hyes

/-- **`forget`** cleans up every inode of the list. -/
theorem forget_cleans (cfg : Config) (clock : Nat → Nat → Time) {l : List (Nat × Nat)}
    (hs : SelfNumbered o.state.inodes) (hg : Placed o.state.globals ∧ Remembered o.state.globals)
    (hall : o.state.inodes.reclaims [] (l.map Prod.fst) = true) :
    let o' := (CleanUp.forget cfg clock l o).2
    (∀ x, CleanedAt x (x ∈ l.map Prod.fst) o o') ∧
      Placed o'.state.globals ∧ Remembered o'.state.globals := by
  obtain ⟨o₁, hrun, hclean, hg₁⟩ := forgetRounds_clean cfg clock hs l 0
    (fun x => (CleanedAt.refl x o).congr (by simp)) hg hall
  have hforget : CleanUp.forget cfg clock l o =
      (.ok (), ⟨o₁.state.withInodes o₁.state.inodes.commit, o₁.seen⟩) :=
    (Py.run_bind_ok hrun).trans (CleanUp.quiet_run rfl)
  rw [hforget]
  exact ⟨fun x => ((hclean x).congr (by simp)).commit, hg₁⟩

/-! ## `release` -/

/-- The end of the last open file cleans up an inode without links. -/
theorem removeUnlinked_cleans (cfg : Config) (clock : Nat → Time) (hs : SelfNumbered o.state.inodes)
    (hg : Placed o.state.globals ∧ Remembered o.state.globals)
    (hlinks : ∀ f, o.state.inodes.d.get? k = some f → 0 ≤ f.stNlink ∧ (k = ROOT_INODE → f.stNlink ≠ 0))
    (hone : o.state.inodes.reclaimsOne [] k = true) :
    let o' := (CleanUp.removeUnlinked cfg clock k o).2
    (∀ x, CleanedAt x (k = x) o o') ∧ Placed o'.state.globals ∧ Remembered o'.state.globals := by
  unfold CleanUp.removeUnlinked
  have hsame : (∀ f, o.state.inodes.d.get? k = some f → f.stNlink ≠ 0) →
      (∀ x, CleanedAt x (k = x) o o) ∧ Placed o.state.globals ∧ Remembered o.state.globals := by
    intro hne
    refine ⟨fun x => .of_recounted (fun f hf h => ?_) id (fun f hf => ⟨_, hf⟩) rfl, hg⟩
    have hf' : o.state.inodes.d.get? k = some f := h.1.symm ▸ hf
    have hle := (hlinks f hf').1
    have hnot := hne f hf'
    omega
  cases hk : o.state.inodes.d.get? k with
  | none =>
    rw [Py.run_bind_error (CleanUp.quiet_run (inodeAt_missing hk))]
    exact hsame fun f hf => by
      rw [hk] at hf
      cases hf
  | some f =>
    rw [Py.run_bind_ok (CleanUp.quiet_run (inodeAt_run hk))]
    by_cases hzero : f.stNlink = 0
    · have hroot : k ≠ ROOT_INODE := fun h => (hlinks f hk).2 h hzero
      have hle : f.stNlink ≤ 0 := Int.le_of_eq hzero
      obtain ⟨hparent, hfits⟩ := FSMeta.removable
        (fun x => (CleanedAt.refl x o).congr (by simp)) hone hk hroot hle
      obtain ⟨g', hrun, hg'⟩ := removeInode_calls cfg clock hs hg f.name hparent hk
      rw [if_pos hzero, Py.run_bind_ok (CleanUp.quiet_run (getattr_run hk))]
      have hend : (CleanUp.removeInode cfg clock f.parentInode f.name (f.attributes k).stIno o).2 =
          ⟨⟨(o.state.inodes.delItem k).2, g'⟩, o.seen ++ blockCalls k f.data⟩ := congrArg Prod.snd hrun
      rw [hend]
      have hdel := FSMeta.delItem_d_get?_of_fits (toBytes_isSome.mpr hfits)
        ((Dict.contains_iff _).mpr ⟨_, hk⟩)
      exact ⟨.removed hk hroot hle ((hdel k).trans (if_pos rfl))
        (fun x hx => (hdel x).trans (if_neg hx)) rfl, hg'⟩
    · rw [if_neg hzero]
      exact hsame fun g hg => by
        rw [hk] at hg
        cases hg
        exact hzero

/-- **The last `release`** of an inode cleans it up. -/
theorem release_cleans (cfg : Config) (clock : Nat → Time) {v : Vfs H} (hs : SelfNumbered v.fs.inodes)
    (hg : Placed v.fs.globals ∧ Remembered v.fs.globals)
    (hlinks : ∀ f, v.fs.inodes.d.get? k = some f → 0 ≤ f.stNlink ∧ (k = ROOT_INODE → f.stNlink ≠ 0))
    (hone : v.openCount k = 1 → v.fs.inodes.reclaimsOne [] k = true) :
    let o' := (CleanUp.release cfg clock k ⟨v, []⟩).2
    (∀ x, CleanedAt x (k = x ∧ v.openCount k = 1) ⟨v.fs, []⟩ ⟨o'.state.fs, o'.seen⟩) ∧
      Placed o'.state.fs.globals ∧ Remembered o'.state.fs.globals := by
  let v₁ : Vfs H := (Vfs.addOpen k (-1) v).2
  have hopen : v₁.openCount k = v.openCount k - 1 := by
    rw [addOpen_openCount, if_pos rfl]
    rfl
  unfold CleanUp.release
  rw [Py.run_bind_ok (Py.quiet_run (o := ⟨v, []⟩) (s := v₁) rfl),
    Py.run_bind_ok (Py.quiet_run (o := ⟨v₁, []⟩) (Py.run_read v₁))]
  by_cases hlast : v.openCount k = 1
  · have hzero : v₁.openCount k = 0 := by omega
    let v₂ : Vfs H := { v₁ with inodeOpenCount := v₁.inodeOpenCount.erase k }
    rw [if_pos hzero, Py.run_bind_ok (Py.quiet_run (o := ⟨v₁, []⟩) (s := v₂) rfl)]
    obtain ⟨hclean, hg'⟩ := removeUnlinked_cleans cfg (o := ⟨v.fs, []⟩) clock hs hg hlinks
      (hone hlast)
    cases hr : CleanUp.removeUnlinked cfg clock k ⟨v.fs, []⟩ with
    | mk r o₁ =>
      rw [hr] at hclean hg'
      have hfs : CleanUp.onFs (CleanUp.removeUnlinked cfg clock k) ⟨v₂, []⟩ =
          (r, ⟨{ v₂ with fs := o₁.state }, o₁.seen⟩) := by
        show ((CleanUp.removeUnlinked cfg clock k ⟨v.fs, []⟩).1,
          (⟨{ v₂ with fs := (CleanUp.removeUnlinked cfg clock k ⟨v.fs, []⟩).2.state },
            (CleanUp.removeUnlinked cfg clock k ⟨v.fs, []⟩).2.seen⟩ : Observed (Vfs H) (Nat × H))) = _
        rw [hr]
      cases r with
      | error e =>
        rw [Py.run_bind_error hfs]
        exact ⟨fun x => (hclean x).congr (by simp [hlast]), hg'⟩
      | ok _ =>
        rw [Py.run_bind_ok hfs]
        exact ⟨fun x => ((hclean x).congr (by simp [hlast])).commit, hg'⟩
  · have hnot : v₁.openCount k ≠ 0 := by omega
    rw [if_neg hnot]
    refine ⟨fun x => CleanedAt.commit ?_, hg⟩
    exact (CleanedAt.refl x ⟨v.fs, []⟩).congr (by simp [hlast])

end VeratyFS
