import VeratyFS.Remount

/-!
# Lookup counts and the kernel's references

Is `lookup_count` the number of references that the kernel holds?

* `Counted` — every inode but the root carries the kernel's count.
* `Request.balances` — a request in which the handler counts what the kernel counts: no successful
  `symlink`, `link` or `rename`, no refused `unlink` or `rmdir`, no accepted directory entry, and
  no new inode under a number that the kernel still refers to.
* `lookupCounts_match` — runs of such requests.
* `rename_drifts` — the internal search of `rename` stays counted.
-/

set_option autoImplicit false
set_option maxRecDepth 1024

namespace VeratyFS

open Pylib

variable {H : Type} [DecidableEq H] {cfg : Config}

/-- Every inode but the root carries the number of references to it. -/
def Counted (t : FSMeta H) (references : Nat → Int) : Prop :=
  ∀ k f, t.d.get? k = some f → k ≠ ROOT_INODE → f.lookupCount = references k

namespace Session

/-- `_create` and `link` fail: the parent is missing or unlinked. -/
def refusesIn (s : Session H) (p : Nat) : Bool :=
  match s.inodes.d.get? p with
  | some f => decide (f.stNlink = 0)
  | none => true

omit [DecidableEq H] in
theorem refusesIn_of {s : Session H} {p : Nat} {f : FileInode H}
    (parent : s.vfs.fs.inodes.d.get? p = some f) (links : f.stNlink ≠ 0) :
    s.refusesIn p = false := by
  unfold refusesIn
  rw [show s.inodes.d.get? p = some f from parent]
  exact decide_eq_false links

/-- The kernel does not refer to the next inode number. -/
def nextUnreferenced (s : Session H) : Bool :=
  match s.inodes.max with
  | some m => decide (s.references (m + 1) = 0)
  | none => true

end Session

/-- The handler counts what the kernel counts. -/
def Request.balances (s : Session H) : Request → Bool
  | .create a => s.refusesIn a.parent || s.nextUnreferenced
  | .mkdir a => s.refusesIn a.parent || s.nextUnreferenced
  | .mknod a _ => s.refusesIn a.parent || s.nextUnreferenced
  | .symlink p _ _ _ _ => s.refusesIn p
  | .link _ p _ => s.refusesIn p
  | .unlink p n =>
    match findEntry s.inodes p n with
    | some (k, f) => !S_ISDIR f.mode || decide (k = ROOT_INODE)
    | none => true
  | .rmdir p n =>
    match findEntry s.inodes p n with
    | some (k, f) =>
      S_ISDIR f.mode && (dirEntries s.inodes k).isEmpty && decide (k < 256 ^ 64) ||
        decide (k = ROOT_INODE)
    | none => true
  | .rename pOld nOld _ _ flags => decide (flags ≠ 0) || (findEntry s.inodes pOld nOld).isNone
  | .readdir inode off accepted =>
    match (dirEntries s.inodes inode)[off]? with
    | some f => !accepted || decide (f.inode = ROOT_INODE)
    | none => true
  | _ => true

/-! ## Moves of the table and of the references -/

section Counted

variable {t t' : FSMeta H} {refs refs' : Nat → Int} {k : Nat} {f v : FileInode H}

omit [DecidableEq H] in
/-- One inode changes, with its count. -/
theorem Counted.change (h : Counted t refs)
    (hd : ∀ x, t'.d.get? x = if k = x then some v else t.d.get? x)
    (hv : k ≠ ROOT_INODE → v.lookupCount = refs' k)
    (hr : ∀ x, x ≠ k → refs' x = refs x) : Counted t' refs' := by
  intro x g hx hroot
  rw [hd] at hx
  split at hx
  · rename_i e
    cases hx
    exact e ▸ hv (e ▸ hroot)
  · rename_i e
    rw [h x g hx hroot, hr x (Ne.symm e)]

omit [DecidableEq H] in
/-- Inodes that are gone need no count. -/
theorem Counted.shrink (h : Counted t refs)
    (hd : ∀ x, t'.d.get? x = t.d.get? x ∨ t'.d.get? x = none) : Counted t' refs := by
  intro x g hx hroot
  rcases hd x with e | e
  · exact h x g (e ▸ hx) hroot
  · rw [e] at hx
    cases hx

omit [DecidableEq H] in
theorem Counted.congr (h : Counted t refs) (hr : ∀ k, refs k = refs' k) : Counted t refs' :=
  (funext hr : refs = refs') ▸ h

omit [DecidableEq H] in
theorem Counted.commit (h : Counted t refs) : Counted t.commit refs :=
  h.shrink fun _ => .inl (by rw [FSMeta.commit_d])

omit [DecidableEq H] in
theorem Counted.delItem (h : Counted t refs) (k : Nat) : Counted (t.delItem k).2 refs :=
  h.shrink fun x => (t.delItem_d_get? k x).imp_right And.right

end Counted

/-- The references after a reply. -/
def Request.counted (q : Request) (r : Except PyError Reply) (refs : Nat → Int) (k : Nat) : Int :=
  refs k + (if q.grants r = some k then 1 else 0) - q.returns k

omit [DecidableEq H] in
theorem ForgetOneRun.counted {s s' : Fs H} {k n : Nat} {refs : Nat → Int}
    (h : ForgetOneRun s k n s') (hself : SelfNumbered s.inodes) (hc : Counted s.inodes refs) :
    Counted s'.inodes fun x => refs x - if k = x then (n : Int) else 0 := by
  have hother : ∀ x, x ≠ k → refs x - (if k = x then (n : Int) else 0) = refs x := by
    intro x hx
    rw [if_neg (Ne.symm hx), Int.sub_zero]
  have hforgot : ∀ {f : FileInode H}, s.inodes.d.get? k = some f →
      Counted (s.inodes.setItem k (f.forgotten n))
        fun x => refs x - if k = x then (n : Int) else 0 := by
    intro f found
    refine hc.change (s.inodes.setItem_d_get? k · _) (fun hroot => ?_) hother
    show f.lookupCount - n = refs k - if k = k then (n : Int) else 0
    rw [if_pos rfl, hc k f found hroot]
  cases h with
  | missing found =>
    intro x g hx hroot
    have hne : k ≠ x := by
      rintro rfl
      rw [found] at hx
      cases hx
    show g.lookupCount = refs x - if k = x then (n : Int) else 0
    rw [if_neg hne, Int.sub_zero]
    exact hc x g hx hroot
  | root found root =>
    refine hc.change (s.inodes.setItem_d_get? k · _) (fun hroot => ?_) hother
    exact absurd ((hself k _ found).symm.trans root) hroot
  | kept found notRoot => exact hforgot found
  | removed found notRoot links => exact (hforgot found).delItem k

omit [DecidableEq H] in
theorem ForgetRounds.counted {l : List (Nat × Nat)} {s s' : Fs H} {refs : Nat → Int}
    (h : ForgetRounds l s s') (hself : SelfNumbered s.inodes) (hc : Counted s.inodes refs) :
    Counted s'.inodes ((Request.forget l).counted (.ok .done) refs) := by
  induction h generalizing refs with
  | nil s =>
    intro x g hx hroot
    rw [hc x g hx hroot]
    simp [Request.counted, Request.grants, Request.returns]
  | @cons n l s s₁ s₂ first rest ih =>
    have hrest := ih (hself.moves (first.moves hself)) (first.counted hself hc)
    intro x g hx hroot
    rw [hrest x g hx hroot]
    simp [Request.counted, Request.grants, Request.returns]
    omega

/-- A reply that gives no entry changes no count. -/
theorem Request.counted_none {q : Request} {r : Except PyError Reply} (hg : q.grants r = none)
    (hr : ∀ k, q.returns k = 0) (refs : Nat → Int) (k : Nat) : q.counted r refs k = refs k := by
  simp [Request.counted, hg, hr]

/-- A reply with an entry counts it. -/
theorem Request.counted_some {q : Request} {r : Except PyError Reply} {i : Nat}
    (hg : q.grants r = some i) (hr : ∀ k, q.returns k = 0) (refs : Nat → Int) (k : Nat) :
    q.counted r refs k = if i = k then refs i + 1 else refs k := by
  unfold Request.counted
  rw [hg, hr]
  by_cases e : i = k
  · subst e
    simp
  · simp [e]

/-! ## Requests -/

section Requests

variable {s : Session H} {now : Time} {t : Fs H} {refs : Nat → Int}

omit [DecidableEq H] in
theorem Counted.unchanged {q : Request} {r : Except PyError Reply} (hc : Counted s.inodes refs)
    (hg : q.grants r = none) (hret : ∀ k, q.returns k = 0) :
    Counted s.vfs.fs.inodes (q.counted r refs) := by
  intro k f hk hroot
  rw [Request.counted_none hg hret]
  exact hc k f hk hroot

omit [DecidableEq H] in
/-- `_create` counts the new inode once, as the kernel does. -/
theorem CreateRun.counted {a : CreateArgs} {r : Except PyError EntryAttributes} {q : Request}
    (h : CreateRun s.vfs.fs a now r t) (hc : Counted s.inodes s.references)
    (hb : (s.refusesIn a.parent || s.nextUnreferenced) = true)
    (hentry : ∀ e, q.grants (.ok (.entry e)) = some e.stIno)
    (herror : ∀ e, q.grants (.error e) = none) (hret : ∀ k, q.returns k = 0) :
    Counted t.inodes (q.counted (r.map .entry) s.references) := by
  cases h with
  | orphan parent => exact hc.unchanged (herror _) hret
  | unlinkedParent parent links => exact hc.unchanged (herror _) hret
  | @done p ino parent links number =>
    have hzero : s.references ino = 0 := by
      obtain ⟨m, hm, rfl⟩ := number
      have hm : s.inodes.max = some m := hm
      simpa [Session.refusesIn_of parent links, Session.nextUnreferenced, hm] using hb
    have hcount := Request.counted_some (hentry ((a.newInode ino now : FileInode H).attributes ino))
      hret s.references
    refine Counted.commit (hc.change (s.inodes.setItem_d_get? ino · _) (fun _ => ?_) fun x hx => ?_)
    · refine Eq.trans ?_ ((hcount ino).trans (if_pos rfl)).symm
      rw [show ((a.newInode ino now : FileInode H).attributes ino).stIno = ino from rfl, hzero]
      rfl
    · exact (hcount x).trans (if_neg (Ne.symm hx))

omit [DecidableEq H] in
/-- A search of a handler counts a lookup. -/
theorem Counted.lookedUp {p k : Nat} {n : Bytes} {f : FileInode H} (hc : Counted s.inodes refs)
    (found : findEntry s.inodes p n = some (k, f)) :
    Counted (s.inodes.update k f.lookedUp) fun x => if k = x then refs k + 1 else refs x := by
  have hk := (findEntry_some found).1
  refine hc.change (FSMeta.update_d_get?_of hk _) (fun hroot => ?_) fun x hx => if_neg (Ne.symm hx)
  show f.lookupCount + 1 = if k = k then refs k + 1 else refs k
  rw [if_pos rfl, hc k f hk hroot]

omit [DecidableEq H] in
/-- A search for the root changes no count that matters. -/
theorem Counted.lookedUp_root {p k : Nat} {n : Bytes} {f : FileInode H} (hc : Counted s.inodes refs)
    (found : findEntry s.inodes p n = some (k, f)) (root : k = ROOT_INODE) :
    Counted (s.inodes.update k f.lookedUp) refs :=
  hc.change (FSMeta.update_d_get?_of (findEntry_some found).1 _) (fun hne => absurd root hne)
    fun _ _ => rfl

omit [DecidableEq H] in
theorem UnlinkRun.counted {p : Nat} {n : Bytes} {r : Except PyError Unit}
    (h : UnlinkRun s.vfs.fs p n r t) (hc : Counted s.inodes s.references)
    (hb : (Request.unlink p n).balances s = true) :
    Counted t.inodes ((Request.unlink p n).counted (r.map fun _ => .done) s.references) := by
  cases h with
  | missing found => exact hc.unchanged rfl fun _ => rfl
  | @directory k f found dir =>
    have found' : findEntry s.inodes p n = _ := found
    have root : k = ROOT_INODE := by simpa [Request.balances, found', dir] using hb
    exact (hc.lookedUp_root found root).congr fun x =>
      (Request.counted_none rfl (fun _ => rfl) _ x).symm
  | @done k f found file =>
    -- the handler's own search counts one lookup, and the handler takes one back
    refine Counted.commit ((hc.lookedUp found).change
      (FSMeta.setItem_d_get? _ k · _) (fun hroot => ?_) fun x hx => ?_)
    · show f.lookupCount + 1 - 1 = _
      rw [Request.counted_none rfl (fun _ => rfl), hc k f (findEntry_some found).1 hroot]
      omega
    · rw [Request.counted_none rfl (fun _ => rfl), if_neg (Ne.symm hx)]

omit [DecidableEq H] in
theorem RmdirRun.counted {p : Nat} {n : Bytes} {r : Except PyError Unit}
    (h : RmdirRun s.vfs.fs p n r t) (hc : Counted s.inodes s.references)
    (hb : (Request.rmdir p n).balances s = true) :
    Counted t.inodes ((Request.rmdir p n).counted (r.map fun _ => .done) s.references) := by
  have hsame : ∀ r : Except PyError Unit, ∀ x,
      (Request.rmdir p n).counted (r.map fun _ => .done) s.references x = s.references x := by
    intro r x
    refine Request.counted_none ?_ (fun _ => rfl) _ x
    cases r <;> rfl
  rw [funext (hsame _)]
  cases h with
  | missing found => exact hc
  | @file k f found file =>
    have found' : findEntry s.inodes p n = _ := found
    have root : k = ROOT_INODE := by simpa [Request.balances, found', file] using hb
    exact hc.lookedUp_root found root
  | @notEmpty k f found dir children =>
    have found' : findEntry s.inodes p n = _ := found
    have children' : dirEntries s.inodes k ≠ [] := children
    have root : k = ROOT_INODE := by simpa [Request.balances, found', children'] using hb
    exact hc.lookedUp_root found root
  | @done k f found dir empty =>
    have found' : findEntry s.inodes p n = _ := found
    have hcase : k < 256 ^ 64 ∨ k = ROOT_INODE := by
      have hb : (S_ISDIR f.mode && (dirEntries s.inodes k).isEmpty && decide (k < 256 ^ 64) ||
        decide (k = ROOT_INODE)) = true := by simpa [Request.balances, found'] using hb
      simp only [Bool.or_eq_true, Bool.and_eq_true, decide_eq_true_eq] at hb
      exact hb.imp_left And.right
    rcases hcase with hfit | hroot
    · have hget : (s.inodes.update k f.lookedUp).d.get? k = some f.lookedUp :=
        (FSMeta.update_d_get?_of (findEntry_some found).1 _ k).trans (if_pos rfl)
      have hdel := FSMeta.delItem_d_get?_of_fits (toBytes_isSome.mpr hfit)
        ((Dict.contains_iff _).mpr ⟨_, hget⟩)
      refine Counted.commit (hc.shrink fun x => ?_)
      by_cases e : k = x
      · exact .inr ((hdel x).trans (if_pos e))
      · refine .inl (((hdel x).trans (if_neg e)).trans ?_)
        exact (FSMeta.update_d_get?_of (findEntry_some found).1 _ x).trans (if_neg e)
    · exact ((hc.lookedUp_root found hroot).delItem k).commit

omit [DecidableEq H] in
/-- **A request that balances keeps the counts.** -/
theorem Handled.counted {q : Request} {r : Except PyError Reply} (h : Handled s.vfs now q r t)
    (hself : SelfNumbered s.inodes) (hc : Counted s.inodes s.references)
    (hb : q.balances s = true) : Counted t.inodes (q.counted r s.references) := by
  cases h with
  | lookup run =>
    cases run with
    | missing found => exact hc.unchanged rfl fun _ => rfl
    | @done k f found =>
      refine (show Counted _ _ from hc.lookedUp found).congr fun x => ?_
      exact (Request.counted_some (r := .ok (.entry (f.attributes k))) rfl (fun _ => rfl) s.references x).symm
  | create run => exact run.counted hc hb (fun _ => rfl) (fun _ => rfl) fun _ => rfl
  | mkdir run => exact run.counted hc hb (fun _ => rfl) (fun _ => rfl) fun _ => rfl
  | mknod run => exact run.counted hc hb (fun _ => rfl) (fun _ => rfl) fun _ => rfl
  | symlink run =>
    cases run with
    | failed created => exact hc.unchanged rfl fun _ => rfl
    | done parent links number =>
      have hrefuses := Session.refusesIn_of parent links
      exact absurd (hrefuses.symm.trans hb) Bool.false_ne_true
  | link run =>
    cases run with
    | orphan parent => exact hc.unchanged rfl fun _ => rfl
    | unlinkedParent parent links => exact hc.unchanged rfl fun _ => rfl
    | dangling parent links number target =>
      have hrefuses := Session.refusesIn_of parent links
      exact absurd (hrefuses.symm.trans hb) Bool.false_ne_true
    | done parent links number target =>
      have hrefuses := Session.refusesIn_of parent links
      exact absurd (hrefuses.symm.trans hb) Bool.false_ne_true
  | unlink run => exact run.counted hc hb
  | rmdir run => exact run.counted hc hb
  | @rename pOld pNew flags nOld nNew _ _ run =>
    have hmissing : flags = 0 → ∀ {e}, findEntry s.inodes pOld nOld = some e → False := by
      intro hflags e found
      simp [Request.balances, found, hflags] at hb
    cases run with
    | flags h => exact hc.unchanged rfl fun _ => rfl
    | missing h found => exact hc.unchanged rfl fun _ => rfl
    | moved h found free => exact (hmissing h found).elim
    | replaced h found target moved count deref => exact (hmissing h found).elim
    | deleted h found target moved count => exact (hmissing h found).elim
  | @readdir inode off accepted r run =>
    cases run with
    | past listed => exact hc.unchanged rfl fun _ => rfl
    | missing listed => exact hc.unchanged rfl fun _ => rfl
    | @done f g listed found =>
      have listed' : (dirEntries s.inodes inode)[off]? = some f := listed
      cases accepted with
      | false => exact hc.unchanged rfl fun _ => rfl
      | true =>
        have hroot : f.inode = ROOT_INODE := by
          simpa [Request.balances, listed'] using hb
        intro x h hx hne
        rw [Request.counted_some (i := f.inode) rfl (fun _ => rfl), if_neg (hroot ▸ Ne.symm hne)]
        exact hc x h hx hne
  | forget rounds =>
    exact Counted.commit (rounds.counted hself hc)
  | openFile => exact hc.unchanged rfl fun _ => rfl
  | @release fh r v' run =>
    have hnone : (Request.release fh).grants (r.map fun _ => .done) = none := by
      cases r <;> rfl
    rw [funext (Request.counted_none hnone (fun _ => rfl) _)]
    cases run with
    | kept same =>
      rcases same with rfl | rfl
      · exact hc
      · exact Counted.commit hc
    | removed last found links gone =>
      rcases gone with rfl | rfl
      · exact Counted.delItem hc fh
      · exact (Counted.delItem hc fh).commit

/-- **The counts are exact in every run of requests that balance**, from a table with only the
root. -/
theorem lookupCounts_match {s s' : Session H} {cs : List Call} (hopen : Opened s.inodes)
    (hroot : ∀ k f, s.inodes.d.get? k = some f → k = ROOT_INODE)
    (hrun : ((sessions cfg).meeting fun s c => c.request.balances s = true).Run s cs s') :
    ∀ k f, s'.inodes.d.get? k = some f → k ≠ ROOT_INODE → f.lookupCount = s'.references k := by
  have hinv : SelfNumbered s'.inodes ∧ Counted s'.inodes s'.references := by
    refine hrun.invariant (I := fun s => SelfNumbered s.inodes ∧ Counted s.inodes s.references) ?_
      ⟨hopen.selfNumbered, fun k f hk hne => absurd (hroot k f hk) hne⟩
    rintro s c _ ⟨hself, hc⟩ ⟨rfl, hbalances⟩
    refine ⟨Session.selfNumbered_exec hself c, ?_⟩
    exact (handle_run cfg c.clock c.request hself).counted hself hc hbalances
  exact hinv.2

end Requests

/-- A file that is looked up, opened, unlinked and partly forgotten. -/
def balancedCalls : List Call :=
  [⟨.create ⟨1, [97], 33188, 0, 0, 0, none⟩, fun _ _ => 0⟩, ⟨.lookup 1 [97], fun _ _ => 0⟩,
    ⟨.openFile 2, fun _ _ => 0⟩, ⟨.mkdir ⟨1, [98], 16877, 0, 0, 0, none⟩, fun _ _ => 0⟩,
    ⟨.forget [(3, 1)], fun _ _ => 0⟩, ⟨.rmdir 1 [98], fun _ _ => 0⟩,
    ⟨.rename 1 [120] 1 [121] 0, fun _ _ => 0⟩, ⟨.unlink 1 [97], fun _ _ => 0⟩]

theorem lookupCounts_match_sample :
    let s := System.after (Session.exec .shipped) sampleSession balancedCalls
    ∀ k f, s.inodes.d.get? k = some f → k ≠ ROOT_INODE → f.lookupCount = s.references k := by
  refine lookupCounts_match sampleSession_opened (fun k f hk => ?_)
    (System.run_meeting_after (Session.exec .shipped) (fun s c => c.request.balances s)
      balancedCalls sampleSession (by decide))
  have hkeys : ∀ e ∈ sampleSession.inodes.d.entries, e.1 = ROOT_INODE := by
    decide
  exact hkeys (k, f) ((Dict.mem_entries_iff _).mpr hk)

/-- A file and its new name. -/
def renamedCalls : List Call :=
  [⟨.create ⟨1, [97], 33188, 0, 0, 0, none⟩, fun _ _ => 0⟩,
    ⟨.rename 1 [97] 1 [98] 0, fun _ _ => 0⟩]

/-- The search inside `rename` stays counted. -/
theorem rename_drifts :
    ¬ ∀ (s s' : Session Bytes) (cs : List Call), Opened s.inodes → (∀ k, s.references k = 0) →
      (∀ k f, s.inodes.d.get? k = some f → k = ROOT_INODE) → (sessions .shipped).Run s cs s' →
      ∀ k f, s'.inodes.d.get? k = some f → k ≠ ROOT_INODE → f.lookupCount = s'.references k := by
  intro h
  have hkeys : ∀ e ∈ sampleSession.inodes.d.entries, e.1 = ROOT_INODE := by
    decide
  have hrun := System.run_after (Session.exec .shipped) renamedCalls sampleSession
  have hcount := h _ _ _ sampleSession_opened (fun _ => rfl)
    (fun k f hk => hkeys (k, f) ((Dict.mem_entries_iff _).mpr hk)) hrun 2
  revert hcount
  decide

end VeratyFS
