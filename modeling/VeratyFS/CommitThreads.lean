import VeratyFS.DurableTable
import VeratyFS.Lib.Batches
import VeratyFS.Lib.PyList

/-!
# Setters and commits in parallel

The statements of `HashTable.__setitem__`, run by the writer threads and `dedup`, and those of
`HashTable.commit`, run by `flush` and the collector's thread.

* `CommitThreads`, `CommitMove` — the table, the position of each setter and of each commit, and one
  statement of one of them.
* `CommitThreads.exclusive` — the moves that the lock flag would allow if it were read, with the
  batches stored in their order and the setters of a key one after the other.
* `commit_keeps_updates` — in such runs no update is lost.
* `update_lost` — the moment between the two assignments of a setter, and a run of a setter that
  gets between a commit's copy and its reset.
-/

set_option autoImplicit false

namespace VeratyFS

open Pylib

variable {H : Type} [DecidableEq H]

/-! ## Statements -/

/-- The position of a commit in `commit` and `save_to_disk`.  A batch carries its number. -/
inductive CommitPc (H : Type) where
  | idle
  /-- After `self.lock = True`. -/
  | locked
  /-- After `cp = self.pending.copy()`. -/
  | copied (cp : Dict H (Block H))
  /-- After `self.pending = {}`. -/
  | emptied (n : Nat) (cp : Dict H (Block H))
  /-- After `self.lock = False`; the loop of `save_to_disk` turns the copy into a batch. -/
  | unlocked (n : Nat) (cp : Dict H (Block H))
  /-- After `self.ht.write(batch)`. -/
  | saved (n : Nat) (cp : Dict H (Block H))

structure CommitThreads (H : Type) where
  table : HashTable H
  lock : Bool
  /-- The entry of a setter that is between `self.d[k] = v` and `self.pending[k] = v`. -/
  setters : List (Option (H × Block H))
  commits : List (CommitPc H)
  /-- History: how many batches were taken, and for each key the number of the last batch with it
      that was written to each database.  No statement reads it. -/
  batches : Nat
  written : H → Nat
  mirrored : H → Nat

inductive CommitMove (H : Type) where
  | assign (i : Nat) (k : H) (v : Block H)
  | enter (i : Nat)
  | commit (j : Nat)

namespace CommitThreads

/-- The next statement of a commit. -/
def commitStmt (t : CommitThreads H) (j : Nat) : CommitPc H → CommitThreads H
  | .idle => { t with lock := true, commits := t.commits.set j .locked }
  | .locked => { t with commits := t.commits.set j (.copied t.table.pending) }
  | .copied cp => { t with
      table := { t.table with pending := Dict.empty }
      batches := t.batches + 1
      commits := t.commits.set j (.emptied (t.batches + 1) cp) }
  | .emptied n cp => { t with lock := false, commits := t.commits.set j (.unlocked n cp) }
  | .unlocked n cp => { t with
      table := { t.table with ht := t.table.ht.update cp }
      written := fun k => if cp.contains k then n else t.written k
      commits := t.commits.set j (.saved n cp) }
  | .saved n cp => { t with
      table := { t.table with
        mirror := if t.table.replication then t.table.mirror.update cp else t.table.mirror }
      mirrored := fun k => if cp.contains k then n else t.mirrored k
      commits := t.commits.set j .idle }

/-- One statement of one of the threads; a thread that is elsewhere does nothing. -/
def exec : CommitMove H → CommitThreads H → CommitThreads H
  | .assign i k v, t =>
    match t.setters[i]? with
    | some none => { t with
        table := { t.table with d := t.table.d.set k v }
        setters := t.setters.set i (some (k, v)) }
    | _ => t
  | .enter i, t =>
    match t.setters[i]? with
    | some (some (k, v)) => { t with
        table := { t.table with pending := t.table.pending.set k v }
        setters := t.setters.set i none }
    | _ => t
  | .commit j, t =>
    match t.commits[j]? with
    | some pc => t.commitStmt j pc
    | none => t

end CommitThreads

def commitThreads : System (CommitThreads H) (CommitMove H) := .ofFun CommitThreads.exec

/-- A commit is between its copy and its reset. -/
def CommitPc.copying {H : Type} : CommitPc H → Bool
  | .copied _ => true
  | _ => false

namespace CommitThreads

/-- `self.pending[k] = v` while `d[k]` is still `v` and no commit is between its copy and its reset;
    a copy while no other commit is there; a batch written while no later batch with one of its keys
    was. -/
def exclusive (t : CommitThreads H) : CommitMove H → Bool
  | .assign .. => true
  | .enter i =>
    match t.setters[i]? with
    | some (some (k, v)) => decide (t.table.d.get? k = some v) && !t.commits.any CommitPc.copying
    | _ => true
  | .commit j =>
    match t.commits[j]? with
    | some .locked => !t.commits.any CommitPc.copying
    | some (.unlocked n cp) => cp.keys.all fun k => decide (t.written k ≤ n)
    | some (.saved n cp) => cp.keys.all fun k => decide (t.mirrored k ≤ n)
    | _ => true

/-- No thread has begun. -/
structure Start (t : CommitThreads H) : Prop where
  loaded : t.table.Loaded
  setters : ∀ s ∈ t.setters, s = none
  commits : ∀ pc ∈ t.commits, pc = .idle

variable {t t' : CommitThreads H}

/-- A setter alone is `HashTable.setItem`. -/
theorem setter_alone {i : Nat} {k : H} {v : Block H} (hi : t.setters[i]? = some none) :
    (exec (.enter i) (exec (.assign i k v) t)).table = t.table.setItem k v := by
  have hlt : i < t.setters.length := (List.getElem?_eq_some_iff.mp hi).1
  simp only [exec, hi, List.getElem?_set_self hlt]
  rfl

/-- A commit alone is `HashTable.commit`. -/
theorem commit_alone {j : Nat} (hj : t.commits[j]? = some .idle) :
    (System.after exec t (List.replicate 6 (.commit j))).table = t.table.commit := by
  have hlt : j < t.commits.length := (List.getElem?_eq_some_iff.mp hj).1
  simp only [List.replicate, System.after, exec, commitStmt, hj, List.getElem?_set_self,
    List.length_set, hlt]
  rfl

/-! ## Batches -/

end CommitThreads

/-- A batch that is not in the database yet. -/
def CommitPc.unsaved {H : Type} : CommitPc H → Option (Nat × Dict H (Block H))
  | .emptied n cp => some (n, cp)
  | .unlocked n cp => some (n, cp)
  | _ => none

/-- A batch that is not in the mirror yet. -/
def CommitPc.unmirrored {H : Type} : CommitPc H → Option (Nat × Dict H (Block H))
  | .emptied n cp => some (n, cp)
  | .unlocked n cp => some (n, cp)
  | .saved n cp => some (n, cp)
  | _ => none

/-- Some commit holds a batch with the entry. -/
def Taken (held : CommitPc H → Option (Nat × Dict H (Block H))) (commits : List (CommitPc H))
    (n : Nat) (k : H) (v : Block H) : Prop :=
  ∃ (j : Nat) (pc : CommitPc H) (cp : Dict H (Block H)),
    commits[j]? = some pc ∧ held pc = some (n, cp) ∧ cp.get? k = some v

section Taken

variable {held : CommitPc H → Option (Nat × Dict H (Block H))} {commits : List (CommitPc H)}
  {j n : Nat} {pc pc' : CommitPc H} {cp : Dict H (Block H)}

theorem taken_set_same (hj : commits[j]? = some pc) (hheld : held pc' = held pc) :
    Taken held (commits.set j pc') = Taken held commits := by
  funext m k v
  refine propext ⟨?_, ?_⟩
  · rintro ⟨i, pc₁, cp, hi, hpc, hk⟩
    rw [getElem?_set_of hj] at hi
    split at hi
    · cases hi
      exact ⟨j, pc, cp, hj, hheld ▸ hpc, hk⟩
    · exact ⟨i, pc₁, cp, hi, hpc, hk⟩
  · rintro ⟨i, pc₁, cp, hi, hpc, hk⟩
    by_cases e : j = i
    · subst e
      rw [hj] at hi
      cases hi
      exact ⟨j, pc', cp, by rw [getElem?_set_of hj, if_pos rfl], hheld.trans hpc, hk⟩
    · exact ⟨i, pc₁, cp, by rw [getElem?_set_of hj, if_neg e, hi], hpc, hk⟩

/-- A commit takes a batch. -/
theorem taken_set_some (hj : commits[j]? = some pc) (hpc : held pc = none)
    (hpc' : held pc' = some (n, cp)) (m : Nat) (k : H) (v : Block H) :
    Taken held (commits.set j pc') m k v ↔
      Taken held commits m k v ∨ m = n ∧ cp.get? k = some v := by
  constructor
  · rintro ⟨i, pc₁, cp₁, hi, hpc₁, hk⟩
    rw [getElem?_set_of hj] at hi
    split at hi
    · cases hi
      rw [hpc'] at hpc₁
      cases hpc₁
      exact .inr ⟨rfl, hk⟩
    · exact .inl ⟨i, pc₁, cp₁, hi, hpc₁, hk⟩
  · rintro (⟨i, pc₁, cp₁, hi, hpc₁, hk⟩ | ⟨rfl, hk⟩)
    · have hne : j ≠ i := by
        rintro rfl
        rw [hj] at hi
        cases hi
        rw [hpc] at hpc₁
        cases hpc₁
      exact ⟨i, pc₁, cp₁, by rw [getElem?_set_of hj, if_neg hne, hi], hpc₁, hk⟩
    · exact ⟨j, pc', cp, by rw [getElem?_set_of hj, if_pos rfl], hpc', hk⟩

/-- A commit lets go of its batch. -/
theorem taken_set_none (hj : commits[j]? = some pc) (hpc : held pc = some (n, cp)) {m : Nat} {k : H}
    {v : Block H} (h : Taken held commits m k v) :
    Taken held (commits.set j pc') m k v ∨ m = n ∧ (cp.get? k).isSome := by
  obtain ⟨i, pc₁, cp₁, hi, hpc₁, hk⟩ := h
  by_cases e : j = i
  · subst e
    rw [hj] at hi
    cases hi
    rw [hpc] at hpc₁
    cases hpc₁
    exact .inr ⟨rfl, by rw [hk]; rfl⟩
  · exact .inl ⟨i, pc₁, cp₁, by rw [getElem?_set_of hj, if_neg e, hi], hpc₁, hk⟩

theorem taken_of_set_none (hj : commits[j]? = some pc) (hpc' : held pc' = none) {m : Nat} {k : H}
    {v : Block H} (h : Taken held (commits.set j pc') m k v) : Taken held commits m k v := by
  obtain ⟨i, pc₁, cp₁, hi, hpc₁, hk⟩ := h
  rw [getElem?_set_of hj] at hi
  split at hi
  · cases hi
    rw [hpc'] at hpc₁
    cases hpc₁
  · exact ⟨i, pc₁, cp₁, hi, hpc₁, hk⟩

end Taken

namespace CommitThreads

variable {t t' : CommitThreads H}

/-- One database with the batches that are not in it yet. -/
def batchesOf (t : CommitThreads H) (held : CommitPc H → Option (Nat × Dict H (Block H)))
    (db : Dict H (Block H)) (written : H → Nat) : Batches H (Block H) where
  memory := t.table.d.get?
  pending := t.table.pending.get?
  stored := db.get?
  assigned k v := some (k, v) ∈ t.setters
  taken := Taken held t.commits
  written := written

/-- **The invariant**: both databases keep up, a copy is what is pending until the reset, and only one
commit is between them. -/
structure Inv (t : CommitThreads H) : Prop where
  primary : (t.batchesOf CommitPc.unsaved t.table.ht t.written).Kept
  mirror : t.table.replication = true →
    (t.batchesOf CommitPc.unmirrored t.table.mirror t.mirrored).Kept
  copy : ∀ (j : Nat) cp, t.commits[j]? = some (CommitPc.copied cp) → cp = t.table.pending
  alone : ∀ (i j : Nat) cp₁ cp₂, t.commits[i]? = some (CommitPc.copied cp₁) →
    t.commits[j]? = some (CommitPc.copied cp₂) → i = j
  numbered : ∀ n k v, Taken CommitPc.unmirrored t.commits n k v → n ≤ t.batches

theorem Start.inv (h : t.Start) : t.Inv := by
  have htaken : ∀ held : CommitPc H → Option (Nat × Dict H (Block H)), held .idle = none →
      ∀ n k v, ¬ Taken held t.commits n k v := by
    rintro held hidle n k v ⟨j, pc, cp, hj, hpc, _⟩
    rw [h.commits pc (List.mem_of_getElem? hj), hidle] at hpc
    cases hpc
  have hcopied : ∀ (j : Nat) cp, t.commits[j]? ≠ some (CommitPc.copied cp) := by
    intro j cp hj
    cases h.commits _ (List.mem_of_getElem? hj)
  have hkept : ∀ (held : CommitPc H → Option (Nat × Dict H (Block H))) (db : Dict H (Block H))
      (written : H → Nat), held .idle = none → (∀ k, db.get? k = t.table.d.get? k) →
      (t.batchesOf held db written).Kept := by
    intro held db written hidle hdb
    refine ⟨fun k v hk => ?_, fun n k v hk => absurd hk (htaken held hidle n k v),
      fun k => .inl (hdb k)⟩
    rw [batchesOf, h.loaded.pending] at hk
    cases hk
  refine ⟨hkept _ _ _ rfl fun k => (h.loaded.ht k).symm, fun hr => hkept _ _ _ rfl fun k => ?_,
    fun j cp hj => absurd hj (hcopied j cp), fun i j cp cp' hi => absurd hi (hcopied i cp),
    fun n k v hk => absurd hk (htaken _ rfl n k v)⟩
  exact (h.loaded.mirror hr k).trans (h.loaded.ht k).symm

/-! ## Setters -/

theorem Inv.assign {i : Nat} {k : H} {v : Block H} (h : t.Inv) (hi : t.setters[i]? = some none) :
    CommitThreads.Inv { t with
      table := { t.table with d := t.table.d.set k v }
      setters := t.setters.set i (some (k, v)) } := by
  have hassigned : ∀ x u, some (x, u) ∈ t.setters.set i (some (k, v)) ↔
      some (x, u) ∈ t.setters ∨ x = k ∧ u = v := by
    intro x u
    rw [List.mem_iff_getElem?, List.mem_iff_getElem?]
    constructor
    · rintro ⟨j, hj⟩
      rw [getElem?_set_of hi] at hj
      split at hj
      · cases hj
        exact .inr ⟨rfl, rfl⟩
      · exact .inl ⟨j, hj⟩
    · rintro (⟨j, hj⟩ | ⟨rfl, rfl⟩)
      · refine ⟨j, ?_⟩
        rw [getElem?_set_of hi, if_neg, hj]
        rintro rfl
        rw [hi] at hj
        cases hj
      · exact ⟨i, by rw [getElem?_set_of hi, if_pos rfl]⟩
  have hother : ∀ x, x ≠ k → (t.table.d.set k v).get? x = t.table.d.get? x := fun x hx =>
    Dict.get?_set_ne _ _ (Ne.symm hx)
  refine ⟨?_, fun hr => ?_, h.copy, h.alone, h.numbered⟩
  · exact h.primary.assign (Dict.get?_set_self _ k v) hother rfl rfl rfl rfl hassigned
  · exact (h.mirror hr).assign (Dict.get?_set_self _ k v) hother rfl rfl rfl rfl hassigned

theorem Inv.enter {i : Nat} {k : H} {v : Block H} (h : t.Inv)
    (hi : t.setters[i]? = some (some (k, v))) (hd : t.table.d.get? k = some v)
    (hnone : ∀ (j : Nat) cp, t.commits[j]? ≠ some (CommitPc.copied cp)) :
    CommitThreads.Inv { t with
      table := { t.table with pending := t.table.pending.set k v }
      setters := t.setters.set i none } := by
  have hassigned : ∀ x u, some (x, u) ∈ t.setters →
      some (x, u) ∈ t.setters.set i none ∨ x = k ∧ u = v := by
    intro x u hx
    rw [List.mem_iff_getElem?] at hx ⊢
    obtain ⟨j, hj⟩ := hx
    by_cases e : i = j
    · subst e
      rw [hi] at hj
      cases hj
      exact .inr ⟨rfl, rfl⟩
    · exact .inl ⟨j, by rw [getElem?_set_of hi, if_neg e, hj]⟩
  have hother : ∀ x, x ≠ k → (t.table.pending.set k v).get? x = t.table.pending.get? x :=
    fun x hx => Dict.get?_set_ne _ _ (Ne.symm hx)
  refine ⟨?_, fun hr => ?_, fun j cp hj => absurd hj (hnone j cp), h.alone, h.numbered⟩
  · exact h.primary.enter hd (Dict.get?_set_self _ k v) hother rfl rfl rfl rfl hassigned
  · exact (h.mirror hr).enter hd (Dict.get?_set_self _ k v) hother rfl rfl rfl rfl hassigned

/-! ## Commits -/

/-- A statement that only moves its commit on, to a position with the same batch. -/
theorem Inv.moveOn {j : Nat} {pc pc' : CommitPc H} {l : Bool} (h : t.Inv)
    (hj : t.commits[j]? = some pc) (hu : pc'.unsaved = pc.unsaved)
    (hm : pc'.unmirrored = pc.unmirrored)
    (hcopy : ∀ cp, pc' = .copied cp →
      cp = t.table.pending ∧ ∀ (i : Nat) cp, t.commits[i]? ≠ some (CommitPc.copied cp)) :
    CommitThreads.Inv { t with lock := l, commits := t.commits.set j pc' } := by
  refine ⟨?_, fun hr => ?_, fun i cp hi => ?_, fun i i' cp₁ cp₂ hi hi' => ?_, fun n k v hk => ?_⟩
  · have hsame : Taken CommitPc.unsaved (t.commits.set j pc') = Taken CommitPc.unsaved t.commits :=
      taken_set_same hj hu
    show Batches.Kept ⟨_, _, _, _, Taken CommitPc.unsaved (t.commits.set j pc'), _⟩
    rw [hsame]
    exact h.primary
  · have hsame : Taken CommitPc.unmirrored (t.commits.set j pc') =
        Taken CommitPc.unmirrored t.commits := taken_set_same hj hm
    show Batches.Kept ⟨_, _, _, _, Taken CommitPc.unmirrored (t.commits.set j pc'), _⟩
    rw [hsame]
    exact h.mirror hr
  · replace hi : (t.commits.set j pc')[i]? = some (CommitPc.copied cp) := hi
    rw [getElem?_set_of hj] at hi
    split at hi
    · exact (hcopy cp (Option.some.inj hi)).1
    · exact h.copy i cp hi
  · replace hi : (t.commits.set j pc')[i]? = some (CommitPc.copied cp₁) := hi
    replace hi' : (t.commits.set j pc')[i']? = some (CommitPc.copied cp₂) := hi'
    rw [getElem?_set_of hj] at hi hi'
    split at hi
    · rename_i e
      split at hi'
      · rename_i e'
        exact e.symm.trans e'
      · exact absurd hi' ((hcopy cp₁ (Option.some.inj hi)).2 i' cp₂)
    · split at hi'
      · exact absurd hi ((hcopy cp₂ (Option.some.inj hi')).2 i cp₁)
      · exact h.alone i i' cp₁ cp₂ hi hi'
  · replace hk : Taken CommitPc.unmirrored (t.commits.set j pc') n k v := hk
    rw [taken_set_same hj hm] at hk
    exact h.numbered n k v hk

theorem taken_unmirrored {commits : List (CommitPc H)} {n : Nat} {k : H} {v : Block H}
    (h : Taken CommitPc.unsaved commits n k v) : Taken CommitPc.unmirrored commits n k v := by
  obtain ⟨j, pc, cp, hj, hpc, hk⟩ := h
  refine ⟨j, pc, cp, hj, ?_, hk⟩
  cases pc with
  | emptied m cp' => exact hpc
  | unlocked m cp' => exact hpc
  | idle => cases hpc
  | locked => cases hpc
  | copied cp' => cases hpc
  | saved m cp' => cases hpc

theorem Inv.empty {j : Nat} {cp : Dict H (Block H)} (h : t.Inv)
    (hj : t.commits[j]? = some (.copied cp)) :
    CommitThreads.Inv { t with
      table := { t.table with pending := Dict.empty }
      batches := t.batches + 1
      commits := t.commits.set j (.emptied (t.batches + 1) cp) } := by
  have hcp := h.copy j cp hj
  subst hcp
  have hcopied : ∀ (i : Nat) cp, (t.commits.set j (.emptied (t.batches + 1) t.table.pending))[i]? ≠
      some (CommitPc.copied cp) := by
    intro i cp hi
    rw [getElem?_set_of hj] at hi
    split at hi
    · cases hi
    · rename_i e
      exact e (h.alone j i _ _ hj hi)
  have hlast : ∀ m x u, Taken CommitPc.unmirrored t.commits m x u → m < t.batches + 1 :=
    fun m x u hx => Nat.lt_succ_of_le (h.numbered m x u hx)
  refine ⟨?_, fun hr => ?_, fun i cp hi => absurd hi (hcopied i cp),
    fun i i' cp₁ cp₂ hi => absurd hi (hcopied i cp₁), fun n k v hk => ?_⟩
  · exact h.primary.take (fun _ => rfl) rfl rfl rfl rfl (fun m x u hx => hlast m x u (taken_unmirrored hx))
      (taken_set_some hj rfl rfl)
  · exact (h.mirror hr).take (fun _ => rfl) rfl rfl rfl rfl hlast (taken_set_some hj rfl rfl)
  · rcases (taken_set_some hj rfl rfl n k v).mp hk with hk | ⟨rfl, _⟩
    · exact Nat.le_succ_of_le (h.numbered n k v hk)
    · exact Nat.le_refl _

omit [DecidableEq H] in
theorem copied_of_set {commits : List (CommitPc H)} {i j : Nat} {pc pc' : CommitPc H}
    {cp : Dict H (Block H)} (hj : commits[j]? = some pc) (hpc : pc' ≠ .copied cp)
    (hi : (commits.set j pc')[i]? = some (.copied cp)) : commits[i]? = some (.copied cp) := by
  rw [getElem?_set_of hj] at hi
  split at hi
  · cases hi
    exact absurd rfl hpc
  · exact hi

theorem Inv.write {j n : Nat} {cp : Dict H (Block H)} (h : t.Inv)
    (hj : t.commits[j]? = some (.unlocked n cp))
    (hfirst : ∀ k, cp.contains k = true → t.written k ≤ n) :
    CommitThreads.Inv { t with
      table := { t.table with ht := t.table.ht.update cp }
      written := fun k => if cp.contains k then n else t.written k
      commits := t.commits.set j (.saved n cp) } := by
  have hcopied : ∀ (i : Nat) cp', (t.commits.set j (.saved n cp))[i]? = some (CommitPc.copied cp') →
      t.commits[i]? = some (CommitPc.copied cp') := fun _ _ => copied_of_set hj nofun
  have hsame : Taken CommitPc.unmirrored (t.commits.set j (.saved n cp)) =
      Taken CommitPc.unmirrored t.commits := taken_set_same hj rfl
  refine ⟨?_, fun hr => ?_, fun i cp' hi => h.copy i cp' (hcopied i cp' hi),
    fun i i' cp₁ cp₂ hi hi' => h.alone i i' cp₁ cp₂ (hcopied i cp₁ hi) (hcopied i' cp₂ hi'),
    fun m k v hk => ?_⟩
  · refine h.primary.save (fun x u (hx : cp.get? x = some u) => ⟨j, _, cp, hj, rfl, hx⟩) hfirst
      (t.table.ht.get?_update cp) (fun x => rfl) rfl rfl rfl
      (fun m x u hx => taken_set_none hj rfl hx) (fun m x u hx => taken_of_set_none hj rfl hx)
  · show Batches.Kept ⟨_, _, _, _, Taken CommitPc.unmirrored (t.commits.set j (.saved n cp)), _⟩
    rw [hsame]
    exact h.mirror hr
  · replace hk : Taken CommitPc.unmirrored (t.commits.set j (.saved n cp)) m k v := hk
    rw [hsame] at hk
    exact h.numbered m k v hk

theorem Inv.writeMirror {j n : Nat} {cp : Dict H (Block H)} (h : t.Inv)
    (hj : t.commits[j]? = some (.saved n cp))
    (hfirst : ∀ k, cp.contains k = true → t.mirrored k ≤ n) :
    CommitThreads.Inv { t with
      table := { t.table with
        mirror := if t.table.replication then t.table.mirror.update cp else t.table.mirror }
      mirrored := fun k => if cp.contains k then n else t.mirrored k
      commits := t.commits.set j .idle } := by
  have hcopied : ∀ (i : Nat) cp', (t.commits.set j .idle)[i]? = some (CommitPc.copied cp') →
      t.commits[i]? = some (CommitPc.copied cp') := fun _ _ => copied_of_set hj nofun
  refine ⟨?_, fun hr => ?_, fun i cp' hi => h.copy i cp' (hcopied i cp' hi),
    fun i i' cp₁ cp₂ hi hi' => h.alone i i' cp₁ cp₂ (hcopied i cp₁ hi) (hcopied i' cp₂ hi'),
    fun m k v hk => h.numbered m k v (taken_of_set_none hj rfl hk)⟩
  · have hsame : Taken CommitPc.unsaved (t.commits.set j .idle) = Taken CommitPc.unsaved t.commits :=
      taken_set_same hj rfl
    show Batches.Kept ⟨_, _, _, _, Taken CommitPc.unsaved (t.commits.set j .idle), _⟩
    rw [hsame]
    exact h.primary
  · replace hr : t.table.replication = true := hr
    refine (h.mirror hr).save (fun x u (hx : cp.get? x = some u) => ⟨j, _, cp, hj, rfl, hx⟩)
      hfirst (fun x => ?_) (fun x => rfl) rfl rfl rfl
      (fun m x u hx => taken_set_none hj rfl hx) (fun m x u hx => taken_of_set_none hj rfl hx)
    show (if t.table.replication then t.table.mirror.update cp else t.table.mirror).get? x = _
    rw [if_pos hr]
    exact t.table.mirror.get?_update cp x

omit [DecidableEq H] in
/-- Nobody is between a copy and its reset. -/
theorem none_copying (h : t.commits.any CommitPc.copying = false) (j : Nat) (cp : Dict H (Block H)) :
    t.commits[j]? ≠ some (CommitPc.copied cp) := by
  intro hj
  have hany := List.any_eq_false.mp h _ (List.mem_of_getElem? hj)
  exact hany rfl

/-- **Every exclusive move keeps the invariant.** -/
theorem Inv.exec {m : CommitMove H} (h : t.Inv) (hm : t.exclusive m = true) :
    (CommitThreads.exec m t).Inv := by
  cases m with
  | assign i k v =>
    unfold CommitThreads.exec
    dsimp only
    split
    · rename_i hi
      exact h.assign hi
    · exact h
  | enter i =>
    unfold CommitThreads.exec
    dsimp only
    split
    · rename_i k v hi
      unfold exclusive at hm
      simp only [hi, Bool.and_eq_true, decide_eq_true_eq, Bool.not_eq_true'] at hm
      exact h.enter hi hm.1 (none_copying hm.2)
    · exact h
  | commit j =>
    unfold CommitThreads.exec
    dsimp only
    split
    · rename_i pc hj
      unfold exclusive at hm
      simp only [hj] at hm
      cases pc with
      | idle => exact h.moveOn hj rfl rfl fun cp e => by cases e
      | locked =>
        refine h.moveOn hj rfl rfl fun cp e => ?_
        cases e
        exact ⟨rfl, none_copying (by simpa using hm)⟩
      | copied cp => exact h.empty hj
      | emptied n cp => exact h.moveOn hj rfl rfl fun cp e => by cases e
      | unlocked n cp =>
        refine h.write hj fun k hk => ?_
        have hle := List.all_eq_true.mp hm k ((Dict.mem_keys_iff _).mpr ((Dict.contains_iff _).mp hk))
        exact of_decide_eq_true hle
      | saved n cp =>
        refine h.writeMirror hj fun k hk => ?_
        have hle := List.all_eq_true.mp hm k ((Dict.mem_keys_iff _).mpr ((Dict.contains_iff _).mp hk))
        exact of_decide_eq_true hle
    · exact h

theorem Inv.run {ms : List (CommitMove H)} (h : t.Inv)
    (hrun : (commitThreads.meeting fun t m => t.exclusive m = true).Run t ms t') : t'.Inv := by
  refine hrun.invariant ?_ h
  rintro t m _ ht ⟨rfl, hm⟩
  exact ht.exec hm

end CommitThreads

/-- **No update is lost** in a run of exclusive moves: an entry that is not the stored one is pending,
in a batch that is being saved, or between the two assignments of its setter; and once nobody sets
and no batch is being saved, a commit makes the databases equal to memory. -/
theorem commit_keeps_updates {t t' : CommitThreads H} {ms : List (CommitMove H)} (hstart : t.Start)
    (hrun : (commitThreads.meeting fun t m => t.exclusive m = true).Run t ms t') :
    (∀ k, t'.table.ht.get? k ≠ t'.table.d.get? k → t'.table.pending.contains k = true ∨
      (∃ pc ∈ t'.commits, ∃ n cp, pc.unsaved = some (n, cp) ∧ cp.contains k = true) ∨
      ∃ v, some (k, v) ∈ t'.setters ∧ t'.table.d.get? k = some v) ∧
    ((∀ s ∈ t'.setters, s = none) → (∀ pc ∈ t'.commits, pc = .idle) →
      t'.table.commit.Persisted) := by
  have hinv := hstart.inv.run hrun
  refine ⟨fun k hne => ?_, fun hset hidle => ?_⟩
  · rcases hinv.primary.stored k with he | (hp | ⟨v, hv, hd⟩) | ⟨n, v, j, pc, cp, hj, hpc, hk⟩
    · exact absurd he hne
    · exact .inl hp
    · exact .inr (.inr ⟨v, hv, hd⟩)
    · exact .inr (.inl ⟨pc, List.mem_of_getElem? hj, n, cp, hpc, (Dict.contains_iff _).mpr ⟨v, hk⟩⟩)
  · have hassigned : ∀ k v, ¬ some (k, v) ∈ t'.setters := fun k v hv => by cases hset _ hv
    have htaken : ∀ held : CommitPc H → Option (Nat × Dict H (Block H)), held .idle = none →
        ∀ n k v, ¬ Taken held t'.commits n k v := by
      rintro held hnone n k v ⟨j, pc, cp, hj, hpc, _⟩
      rw [hidle pc (List.mem_of_getElem? hj), hnone] at hpc
      cases hpc
    have hw : t'.table.Written :=
      ⟨hinv.primary.settled hassigned (htaken _ rfl),
        fun hr => (hinv.mirror hr).settled hassigned (htaken _ rfl)⟩
    exact hw.persisted

/-- One setter and two commits, over an empty table. -/
def sampleCommits : CommitThreads Nat where
  table := .new true
  lock := false
  setters := [none]
  commits := [.idle, .idle]
  batches := 0
  written := fun _ => 0
  mirrored := fun _ => 0

theorem sampleCommits_start : sampleCommits.Start where
  loaded := ⟨rfl, fun _ => rfl, fun _ _ => rfl⟩
  setters s hs := List.mem_singleton.mp hs
  commits pc hpc := by
    rcases List.mem_cons.mp hpc with rfl | hpc
    · rfl
    · exact List.mem_singleton.mp hpc

/-- The entry is set again while the first commit saves its batch. -/
def orderedMoves : List (CommitMove Nat) :=
  [.assign 0 1 { hash := 1 }, .enter 0, .commit 0, .commit 0, .commit 0,
    .assign 0 1 { hash := 1, uses := 1 }, .enter 0, .commit 0, .commit 1, .commit 0, .commit 0]

theorem commit_keeps_updates_sample :
    let t := System.after CommitThreads.exec sampleCommits orderedMoves
    (∀ k, t.table.ht.get? k ≠ t.table.d.get? k → t.table.pending.contains k = true ∨
      (∃ pc ∈ t.commits, ∃ n cp, pc.unsaved = some (n, cp) ∧ cp.contains k = true) ∨
      ∃ v, some (k, v) ∈ t.setters ∧ t.table.d.get? k = some v) ∧
    ((∀ s ∈ t.setters, s = none) → (∀ pc ∈ t.commits, pc = .idle) → t.table.commit.Persisted) :=
  commit_keeps_updates sampleCommits_start
    (System.run_meeting_after _ CommitThreads.exclusive orderedMoves _ (by decide))

/-- The entry becomes pending between a commit's copy and its reset. -/
def lostMoves : List (CommitMove Nat) :=
  [.commit 0, .commit 0, .assign 0 1 { hash := 1 }, .enter 0, .commit 0, .commit 0, .commit 0,
    .commit 0]

/-- Between the two assignments of a setter the entry is nowhere else; and an entry that becomes
pending before a reset is lost for good. -/
theorem update_lost :
    (¬ ∀ (t t' : CommitThreads Nat) (ms : List (CommitMove Nat)), t.Start →
      commitThreads.Run t ms t' → ∀ k, t'.table.ht.get? k ≠ t'.table.d.get? k →
        t'.table.pending.contains k = true ∨
        ∃ pc ∈ t'.commits, ∃ n cp, pc.unsaved = some (n, cp) ∧ cp.contains k = true) ∧
    ¬ ∀ (t t' : CommitThreads Nat) (ms : List (CommitMove Nat)), t.Start →
      commitThreads.Run t ms t' → (∀ s ∈ t'.setters, s = none) → (∀ pc ∈ t'.commits, pc = .idle) →
        t'.table.commit.Persisted := by
  constructor
  · intro h
    have hrun := System.run_after CommitThreads.exec
      [.assign 0 1 { hash := 1 }] sampleCommits
    rcases h _ _ _ sampleCommits_start hrun 1 (by decide) with hp | ⟨pc, hpc, n, cp, hu, _⟩
    · revert hp
      decide
    · rw [sampleCommits_start.commits pc hpc] at hu
      cases hu
  · intro h
    have hrun := System.run_after CommitThreads.exec lostMoves sampleCommits
    have hidle : ∀ pc ∈ (System.after CommitThreads.exec sampleCommits lostMoves).commits,
        pc = .idle := by
      intro pc hpc
      rcases List.mem_cons.mp hpc with rfl | hpc
      · rfl
      · exact List.mem_singleton.mp hpc
    have hp := h _ _ _ sampleCommits_start hrun (fun s hs => List.mem_singleton.mp hs) hidle
    have hsame := hp.ht 1
    revert hsame
    decide

end VeratyFS
