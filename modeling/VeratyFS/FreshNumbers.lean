import VeratyFS.InUse

/-!
# Fresh inode numbers

A new number is the largest of the table plus one, so it is fresh as long as the table has every
number that is in use.

* `Session.uses`, `UsedListed` — the kernel refers to an inode or has it open; such inodes are in the
  table.
* `Handled.grants_listed` — a reply with an entry is about an inode of the table.
* `numbers_fresh` — runs in which no request removes an inode in use.
* `rmdir_frees_number` — a directory that the kernel refers to is removed, and its number is next.
-/

set_option autoImplicit false
set_option maxRecDepth 1024

namespace VeratyFS

open Pylib

variable {H : Type}

/-- The kernel refers to the inode, or has it open. -/
def Session.uses (s : Session H) (k : Nat) : Prop := 0 < s.references k ∨ 0 < s.vfs.openCount k

/-- Every inode in use is in the table. -/
def UsedListed (s : Session H) : Prop := ∀ k, s.uses k → ∃ f, s.inodes.d.get? k = some f

/-- The kernel opens an inode that it refers to. -/
def Request.opensKnown (s : Session H) : Request → Bool
  | .openFile inode => decide (0 < s.references inode)
  | _ => true

variable [DecidableEq H] {cfg : Config} {s s' : Session H} {c : Call} {k : Nat}

/-! ## What a request brings into use -/

omit [DecidableEq H] in
theorem FSMeta.get?_update_self {t : FSMeta H} {f v : FileInode H} (hk : t.d.get? k = some f) :
    (t.update k v).d.get? k = some v := by
  rw [update_d_get?_of hk, if_pos rfl]

omit [DecidableEq H] in
theorem FSMeta.get?_commit_setItem (t : FSMeta H) (k : Nat) (v : FileInode H) :
    (t.setItem k v).commit.d.get? k = some v := by
  rw [commit_d, setItem_d_get?, if_pos rfl]

omit [DecidableEq H] in
theorem CreateRun.granted {a : CreateArgs} {now : Time} {e : EntryAttributes} {t t' : Fs H}
    (h : CreateRun t a now (.ok e) t') : ∃ f, t'.inodes.d.get? e.stIno = some f := by
  cases h with
  | done parent links number => exact ⟨_, FSMeta.get?_commit_setItem _ _ _⟩

omit [DecidableEq H] in
/-- **A reply with an entry** is about an inode that is in the table afterwards. -/
theorem Handled.grants_listed {v : Vfs H} {now : Time} {q : Request} {r : Except PyError Reply}
    {t : Fs H} (h : Handled v now q r t) (hk : q.grants r = some k) :
    ∃ f, t.inodes.d.get? k = some f := by
  have hentry : ∀ {q : Request} {r : Except PyError EntryAttributes},
      q.grants (r.map .entry) = some k → ∃ e, r = .ok e ∧ e.stIno = k := by
    intro q r hg
    cases r with
    | error e => cases q <;> cases hg
    | ok e => exact ⟨e, rfl, by cases q <;> exact Option.some.inj hg⟩
  cases h with
  | lookup run =>
    obtain ⟨e, rfl, rfl⟩ := hentry hk
    cases run with
    | done found => exact ⟨_, FSMeta.get?_update_self (findEntry_some found).1⟩
  | create run =>
    obtain ⟨e, rfl, rfl⟩ := hentry hk
    exact run.granted
  | mkdir run =>
    obtain ⟨e, rfl, rfl⟩ := hentry hk
    exact run.granted
  | mknod run =>
    obtain ⟨e, rfl, rfl⟩ := hentry hk
    exact run.granted
  | symlink run =>
    obtain ⟨e, rfl, rfl⟩ := hentry hk
    cases run with
    | done parent links number => exact ⟨_, FSMeta.get?_commit_setItem _ _ _⟩
  | link run =>
    obtain ⟨e, rfl, rfl⟩ := hentry hk
    cases run with
    | done parent links number target => exact ⟨_, FSMeta.get?_commit_setItem _ _ _⟩
  | unlink run => rw [Request.grants_done] at hk; cases hk
  | rmdir run => rw [Request.grants_done] at hk; cases hk
  | rename run => rw [Request.grants_done] at hk; cases hk
  | @readdir inode off accepted _ run =>
    cases run with
    | past listed => cases hk
    | missing listed => cases hk
    | @done f g listed found =>
      change (if accepted then some f.inode else none) = some k at hk
      cases accepted with
      | false => cases hk
      | true =>
        cases hk
        exact ⟨g, found⟩
  | forget rounds => cases hk
  | openFile => cases hk
  | release run => rw [Request.grants_done] at hk; cases hk

/-- An inode that is open was open before, or it was created or opened. -/
theorem Session.opened_cases (h : 0 < (s.exec cfg c).vfs.openCount k) :
    0 < s.vfs.openCount k ∨ c.request.grants (s.outcome cfg c).1 = some k ∨
      c.request = .openFile k := by
  have hanswer : ∀ {α : Type} {reply : α → Reply} {m : Op H α},
      c.request.handle cfg c.clock s.vfs = Vfs.answer reply m s.vfs → 0 < s.vfs.openCount k := by
    intro α reply m hm
    rw [answer_run] at hm
    unfold Session.exec Session.outcome at h
    rw [hm] at h
    exact h
  cases hq : c.request with
  | create a =>
    unfold Session.exec Session.outcome at h
    unfold Session.outcome
    rw [hq, Request.handle, bind_reply] at h ⊢
    obtain ⟨hr, _, hcount⟩ := Vfs.create_run a (c.clock 0 0) s.vfs
    change 0 < (Vfs.create a (c.clock 0 0) s.vfs).2.openCount k at h
    rw [hcount] at h
    rw [hr]
    cases hc : (VeratyFS.create a (c.clock 0 0) s.vfs.fs).1 with
    | error e =>
      rw [hc] at h
      exact .inl (by simpa using h)
    | ok e =>
      rw [hc] at h
      by_cases he : e.stIno = k
      · exact .inr (.inl (congrArg some he))
      · refine .inl ?_
        simpa [he] using h
  | openFile inode =>
    have hopen : (s.exec cfg c).vfs.openCount k =
        if inode = k then s.vfs.openCount inode + 1 else s.vfs.openCount k := by
      unfold Session.exec Session.outcome
      rw [hq]
      exact addOpen_openCount s.vfs inode k 1
    by_cases he : inode = k
    · exact .inr (.inr (congrArg _ he))
    · rw [hopen, if_neg he] at h
      exact .inl h
  | release fh =>
    have hopen := (release_run cfg (c.clock 0) fh s.vfs).2 k
    have hsame : (s.exec cfg c).vfs.openCount k =
        (Vfs.release cfg (c.clock 0) fh s.vfs).2.openCount k := by
      unfold Session.exec Session.outcome
      rw [hq, Request.handle, bind_reply]
    rw [hsame, hopen] at h
    split at h
    · rename_i he
      rw [he] at h
      exact .inl (by omega)
    · exact .inl h
  | _ => exact .inl (hanswer (by rw [hq]; rfl))

/-- An inode in use was in use before, or the request brought it into use. -/
theorem Session.uses_cases (h : (s.exec cfg c).uses k) (hback : ∀ k, 0 ≤ c.request.returns k) :
    s.uses k ∨ c.request.grants (s.outcome cfg c).1 = some k ∨ c.request = .openFile k := by
  rcases h with href | hopen
  · change 0 < s.references k + (if c.request.grants (s.outcome cfg c).1 = some k then 1 else 0) -
      c.request.returns k at href
    have := hback k
    by_cases hg : c.request.grants (s.outcome cfg c).1 = some k
    · exact .inr (.inl hg)
    · rw [if_neg hg] at href
      exact .inl (.inl (by omega))
  · rcases Session.opened_cases hopen with h | h
    · exact .inl (.inr h)
    · exact .inr h

theorem Request.returns_nonneg (q : Request) (k : Nat) : 0 ≤ q.returns k := by
  cases q with
  | forget l =>
    change 0 ≤ (l.map fun n => if n.1 = k then (n.2 : Int) else 0).sum
    induction l with
    | nil => exact Int.le_refl 0
    | cons n l ih =>
      rw [List.map_cons, List.sum_cons]
      split <;> omega
  | _ => exact Int.le_refl 0

/-! ## Runs -/

/-- **One request** that removes nothing in use keeps it in the table. -/
theorem UsedListed.exec (h : UsedListed s) (hself : SelfNumbered s.inodes)
    (hidle : c.request.removesIdle s = true) (hopens : c.request.opensKnown s = true) :
    UsedListed (s.exec cfg c) := by
  have hhandled := handle_run cfg c.clock c.request hself
  intro k huses
  -- an inode of the table that is in use afterwards was not removed
  have hkept : ∀ f, s.inodes.d.get? k = some f → ∃ f', (s.exec cfg c).inodes.d.get? k = some f' := by
    intro f hf
    rcases hhandled.kept.old k f hf with ⟨f', hf', _⟩ | ⟨hgone, hr⟩
    · exact ⟨f', hf'⟩
    · obtain ⟨hclosed, hrefs⟩ := hr.idle cfg hf hidle
      rcases huses with h | h <;> omega
  rcases Session.uses_cases huses c.request.returns_nonneg with hold | hg | ho
  · obtain ⟨f, hf⟩ := h k hold
    exact hkept f hf
  · exact hhandled.grants_listed hg
  · rw [ho] at hopens
    obtain ⟨f, hf⟩ := h k (.inl (of_decide_eq_true hopens))
    exact hkept f hf

/-- **New numbers are fresh** in every run of requests that remove nothing in use: a number that
`gen_inode_number` gives is not in the table, the kernel does not refer to it, and it is not open. -/
theorem numbers_fresh {cs : List Call} (hself : SelfNumbered s.inodes) (hlisted : UsedListed s)
    (hrun : ((sessions cfg).meeting fun s c =>
      (c.request.removesIdle s && c.request.opensKnown s) = true).Run s cs s')
    {n : Nat} (hn : (genInodeNumber s'.vfs.fs).1 = .ok n) :
    s'.inodes.d.get? n = none ∧ ¬ s'.uses n := by
  have hinv : SelfNumbered s'.inodes ∧ UsedListed s' := by
    refine hrun.invariant (I := fun s => SelfNumbered s.inodes ∧ UsedListed s) ?_ ⟨hself, hlisted⟩
    rintro s c _ ⟨hself, hlisted⟩ ⟨rfl, hc⟩
    rw [Bool.and_eq_true] at hc
    exact ⟨Session.selfNumbered_exec hself c, hlisted.exec hself hc.1 hc.2⟩
  have hfree : s'.inodes.d.get? n = none := NextNumber.unused (genInodeNumber_ok hn)
  refine ⟨hfree, fun huses => ?_⟩
  obtain ⟨f, hf⟩ := hinv.2 n huses
  rw [hfree] at hf
  cases hf

/-- A directory is made, removed and forgotten; the next one gets its number. -/
def forgottenDirectory : List Call :=
  [⟨.mkdir ⟨1, [100], 16877, 0, 0, 0, none⟩, fun _ _ => 0⟩,
    ⟨.create ⟨1, [97], 33188, 0, 0, 0, none⟩, fun _ _ => 0⟩, ⟨.release 3, fun _ _ => 0⟩,
    ⟨.forget [(2, 1)], fun _ _ => 0⟩, ⟨.rmdir 1 [100], fun _ _ => 0⟩]

theorem numbers_fresh_sample :
    let s := System.after (Session.exec .shipped) sampleSession forgottenDirectory
    s.inodes.d.get? 4 = none ∧ ¬ s.uses 4 := by
  refine numbers_fresh sampleSession_opened.selfNumbered (fun k h => ?_)
    (System.run_meeting_after (Session.exec .shipped)
      (fun s c => c.request.removesIdle s && c.request.opensKnown s) forgottenDirectory sampleSession
      (by decide)) (by decide)
  rcases h with h | h <;> exact absurd h (Int.lt_irrefl 0)

/-- `rmdir` removes a directory that the kernel refers to, and its number is the next one. -/
theorem rmdir_frees_number :
    ¬ ∀ (s s' : Session Bytes) (cs : List Call) (n : Nat), Opened s.inodes →
      (∀ k, s.references k = 0) → (∀ k, s.vfs.openCount k = 0) → (sessions .shipped).Run s cs s' →
      (genInodeNumber s'.vfs.fs).1 = .ok n → s'.inodes.d.get? n = none ∧ ¬ s'.uses n := by
  intro h
  have hrun := System.run_after (Session.exec .shipped)
    [⟨.mkdir ⟨1, [100], 16877, 0, 0, 0, none⟩, fun _ _ => 0⟩, ⟨.rmdir 1 [100], fun _ _ => 0⟩]
    sampleSession
  have hfresh := h _ _ _ 2 sampleSession_opened (fun _ => rfl) (fun _ => rfl) hrun (by decide)
  refine hfresh.2 (.inl ?_)
  decide

end VeratyFS
