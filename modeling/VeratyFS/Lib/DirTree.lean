/-!
# Directory trees

A tree binds a name in a directory to a node and says whether the node is itself a directory.

* `DirTree`, `WellFormed` — every node is bound once, and every binding is in a directory that is
  reached from the root.
* `add`, `remove`, `move` — the changes of the bindings, and the conditions under which they keep a
  tree well formed.
* `unlink`, `rmdir`, `rename` — the operations with their errors.
-/

set_option autoImplicit false

namespace Pylib

/-- What each directory binds names to: a node, and whether the node is a directory. -/
structure DirTree (ι ν : Type) where
  entries : ι → ν → Option (ι × Bool)

/-- Why an operation is refused. -/
inductive TreeError where
  | notFound
  | isDirectory
  | notDirectory
  | notEmpty
  deriving DecidableEq, Repr

namespace DirTree

variable {ι ν : Type}

/-- A node that a binding gives. -/
def Bound (T : DirTree ι ν) (i : ι) : Prop := ∃ p n d, T.entries p n = some (i, d)

def IsDir (T : DirTree ι ν) (i : ι) : Prop := ∃ p n, T.entries p n = some (i, true)

/-- A directory with no binding in it. -/
def Empty (T : DirTree ι ν) (i : ι) : Prop := ∀ n, T.entries i n = none

/-- `j` is `i` or is bound below it. -/
inductive Below (T : DirTree ι ν) (i : ι) : ι → Prop
  | self : Below T i i
  | step {p j : ι} {n : ν} {d : Bool} (above : Below T i p) (bound : T.entries p n = some (j, d)) :
      Below T i j

/-- A tree with a root: nodes are bound once, in directories below the root. -/
structure WellFormed (T : DirTree ι ν) (root : ι) : Prop where
  root_dir : T.IsDir root
  once : ∀ p n p' n' i d d', T.entries p n = some (i, d) → T.entries p' n' = some (i, d') →
    p = p' ∧ n = n'
  parent : ∀ p n i d, T.entries p n = some (i, d) → T.IsDir p
  reached : ∀ p n i d, T.entries p n = some (i, d) → T.Below root p

variable {T : DirTree ι ν} {root i j p p' : ι} {n n' : ν} {d : Bool}

theorem Below.trans {k : ι} (h : T.Below i j) (h' : T.Below j k) : T.Below i k := by
  induction h' with
  | self => exact h
  | step _ bound ih => exact .step ih bound

/-- Every node is reached from the root through directories. -/
theorem WellFormed.below (h : T.WellFormed root) (hi : T.Bound i) : T.Below root i := by
  obtain ⟨p, n, d, hb⟩ := hi
  exact .step (h.reached p n i d hb) hb

/-- The kind of a node is the same wherever it is asked. -/
theorem WellFormed.kind (h : T.WellFormed root) {d' : Bool} (hb : T.entries p n = some (i, d))
    (hb' : T.entries p' n' = some (i, d')) : d = d' := by
  obtain ⟨rfl, rfl⟩ := h.once p n p' n' i d d' hb hb'
  rw [hb] at hb'
  cases hb'
  rfl

theorem WellFormed.isDir_of (h : T.WellFormed root) (hb : T.entries p n = some (i, d))
    (hi : T.IsDir i) : d = true := by
  obtain ⟨p', n', hb'⟩ := hi
  exact h.kind hb hb'

/-- The directory of a binding is not empty. -/
theorem Empty.ne (h : T.Empty i) (hb : T.entries p n = some (j, d)) : p ≠ i := by
  rintro rfl
  rw [h n] at hb
  cases hb

/-- Nothing is bound in a node that is no directory. -/
theorem WellFormed.file_empty (h : T.WellFormed root) (hb : T.entries p n = some (i, false)) :
    T.Empty i := by
  intro m
  cases hm : T.entries i m with
  | none => rfl
  | some e => exact absurd (h.isDir_of hb (h.parent i m e.1 e.2 hm)) Bool.false_ne_true

theorem Below.eq_of_empty (he : T.Empty i) (h : T.Below i j) : j = i := by
  induction h with
  | self => rfl
  | step _ bound ih => exact absurd ih (he.ne bound)

/-- The root is never empty: it is bound in a directory below it. -/
theorem WellFormed.ne_root (h : T.WellFormed root) (he : T.Empty i) : i ≠ root := by
  rintro rfl
  obtain ⟨p, n, hb⟩ := h.root_dir
  exact he.ne hb ((h.reached p n _ _ hb).eq_of_empty he)

variable [DecidableEq ι] [DecidableEq ν]

/-! ## Changes of the bindings -/

/-- The binding of a name, set or removed. -/
def bind (T : DirTree ι ν) (p : ι) (n : ν) (o : Option (ι × Bool)) : DirTree ι ν :=
  ⟨fun q m => if q = p ∧ m = n then o else T.entries q m⟩

theorem bind_entries (T : DirTree ι ν) (p : ι) (n : ν) (o : Option (ι × Bool)) (q : ι) (m : ν) :
    (T.bind p n o).entries q m = if q = p ∧ m = n then o else T.entries q m := rfl

/-- A new node. -/
def add (T : DirTree ι ν) (p : ι) (n : ν) (i : ι) (d : Bool) : DirTree ι ν := T.bind p n (some (i, d))

def remove (T : DirTree ι ν) (p : ι) (n : ν) : DirTree ι ν := T.bind p n none

/-- The node of one name gets another name, which loses its own node. -/
def move (T : DirTree ι ν) (p : ι) (n : ν) (p' : ι) (n' : ν) : DirTree ι ν :=
  (T.remove p n).bind p' n' (T.entries p n)

/-- **A new node under a free name of a directory.** -/
theorem WellFormed.add (h : T.WellFormed root) (hp : T.IsDir p) (hreach : T.Below root p)
    (hfree : T.entries p n = none) (hnew : ¬ T.Bound i) (d : Bool) :
    (T.add p n i d).WellFormed root := by
  have hold : ∀ {q m x e}, T.entries q m = some (x, e) →
      (T.add p n i d).entries q m = some (x, e) := by
    intro q m x e hb
    unfold DirTree.add
    rw [bind_entries, if_neg]
    · exact hb
    · rintro ⟨rfl, rfl⟩
      rw [hfree] at hb
      cases hb
  have hcases : ∀ {q m x e}, (T.add p n i d).entries q m = some (x, e) →
      (q = p ∧ m = n ∧ x = i ∧ e = d) ∨ T.entries q m = some (x, e) := by
    intro q m x e hb
    unfold DirTree.add at hb
    rw [bind_entries] at hb
    split at hb
    · rename_i hqm
      cases hb
      exact .inl ⟨hqm.1, hqm.2, rfl, rfl⟩
    · exact .inr hb
  have hbelow : ∀ {x y}, T.Below x y → (T.add p n i d).Below x y := by
    intro x y hxy
    induction hxy with
    | self => exact .self
    | step _ bound ih => exact .step ih (hold bound)
  have hdir : ∀ {x}, T.IsDir x → (T.add p n i d).IsDir x := fun ⟨q, m, hb⟩ => ⟨q, m, hold hb⟩
  refine ⟨hdir h.root_dir, fun q m q' m' x e e' hb hb' => ?_, fun q m x e hb => ?_,
    fun q m x e hb => ?_⟩
  · rcases hcases hb with ⟨hq, hm, hx, _⟩ | hold <;>
      rcases hcases hb' with ⟨hq', hm', hx', _⟩ | hold'
    · exact ⟨hq.trans hq'.symm, hm.trans hm'.symm⟩
    · exact absurd ⟨q', m', e', hx ▸ hold'⟩ hnew
    · exact absurd ⟨q, m, e, hx' ▸ hold⟩ hnew
    · exact h.once q m q' m' x e e' hold hold'
  · rcases hcases hb with ⟨rfl, _⟩ | hb
    · exact hdir hp
    · exact hdir (h.parent q m x e hb)
  · rcases hcases hb with ⟨rfl, _⟩ | hb
    · exact hbelow hreach
    · exact hbelow (h.reached q m x e hb)

/-- A binding of the smaller tree. -/
theorem remove_some {q : ι} {m : ν} {x : ι} {e : Bool}
    (hb : (T.remove p n).entries q m = some (x, e)) :
    ¬ (q = p ∧ m = n) ∧ T.entries q m = some (x, e) := by
  unfold remove at hb
  rw [bind_entries] at hb
  split at hb
  · cases hb
  · rename_i hqm
    exact ⟨hqm, hb⟩

theorem remove_of {q : ι} {m : ν} {x : ι} {e : Bool} (hqm : ¬ (q = p ∧ m = n))
    (hb : T.entries q m = some (x, e)) : (T.remove p n).entries q m = some (x, e) := by
  unfold remove
  rw [bind_entries, if_neg hqm]
  exact hb

/-- The bindings of the other nodes. -/
theorem WellFormed.remove_iff (h : T.WellFormed root) (hb : T.entries p n = some (i, d)) (q : ι)
    (m : ν) (x : ι) (e : Bool) :
    (T.remove p n).entries q m = some (x, e) ↔ x ≠ i ∧ T.entries q m = some (x, e) := by
  constructor
  · intro hx
    obtain ⟨hqm, hold⟩ := remove_some hx
    refine ⟨?_, hold⟩
    rintro rfl
    exact hqm (h.once q m p n x e d hold hb)
  · rintro ⟨hne, hold⟩
    refine remove_of ?_ hold
    rintro ⟨rfl, rfl⟩
    rw [hb] at hold
    cases hold
    exact hne rfl

/-- **A node without bindings in it goes.** -/
theorem WellFormed.remove (h : T.WellFormed root) (hb : T.entries p n = some (i, d))
    (hempty : T.Empty i) : (T.remove p n).WellFormed root := by
  have hkeep : ∀ {q m x e}, T.entries q m = some (x, e) → x ≠ i →
      (T.remove p n).entries q m = some (x, e) :=
    fun hx hne => (h.remove_iff hb _ _ _ _).mpr ⟨hne, hx⟩
  have hbelow : ∀ {x y}, T.Below x y → y ≠ i → (T.remove p n).Below x y := by
    intro x y hxy
    induction hxy with
    | self => exact fun _ => .self
    | step _ bound ih => exact fun hy => .step (ih (hempty.ne bound)) (hkeep bound hy)
  have hdir : ∀ {x}, T.IsDir x → x ≠ i → (T.remove p n).IsDir x :=
    fun ⟨q, m, hx⟩ hxi => ⟨q, m, hkeep hx hxi⟩
  refine ⟨hdir h.root_dir (h.ne_root hempty).symm, fun q m q' m' x e e' hx hx' => ?_, fun q m x e hx => ?_,
    fun q m x e hx => ?_⟩
  · exact h.once q m q' m' x e e' (remove_some hx).2 (remove_some hx').2
  · exact hdir (h.parent q m x e (remove_some hx).2) (hempty.ne (remove_some hx).2)
  · exact hbelow (h.reached q m x e (remove_some hx).2) (hempty.ne (remove_some hx).2)

/-- What a move needs: the source is bound, the new directory is not below it, and a node that loses
its name is an empty one. -/
structure Movable (T : DirTree ι ν) (root p : ι) (n : ν) (p' : ι) (n' : ν) (i : ι) (d : Bool) :
    Prop where
  source : T.entries p n = some (i, d)
  dir : T.IsDir p'
  reach : T.Below root p'
  above : ¬ T.Below i p'
  target : ∀ j e, T.entries p' n' = some (j, e) → T.Empty j

/-- The moved node has its new binding, and the others keep theirs, but for the one that loses it. -/
theorem WellFormed.move_iff (h : T.WellFormed root) (hb : T.entries p n = some (i, d)) (q : ι)
    (m : ν) (x : ι) (e : Bool) :
    (T.move p n p' n').entries q m = some (x, e) ↔
      (x = i ∧ e = d ∧ q = p' ∧ m = n') ∨
        (x ≠ i ∧ ¬ (q = p' ∧ m = n') ∧ T.entries q m = some (x, e)) := by
  unfold DirTree.move
  rw [bind_entries, hb]
  by_cases hqm : q = p' ∧ m = n'
  · rw [if_pos hqm]
    constructor
    · intro hx
      cases hx
      exact .inl ⟨rfl, rfl, hqm⟩
    · rintro (⟨rfl, rfl, _⟩ | ⟨_, hno, _⟩)
      · rfl
      · exact absurd hqm hno
  · rw [if_neg hqm, h.remove_iff hb]
    constructor
    · exact fun hx => .inr ⟨hx.1, hqm, hx.2⟩
    · rintro (⟨_, _, hyes⟩ | ⟨hne, _, hold⟩)
      · exact absurd hyes hqm
      · exact ⟨hne, hold⟩

/-- **A node moves with all that is below it.** -/
theorem WellFormed.move (h : T.WellFormed root) (hm : T.Movable root p n p' n' i d) :
    (T.move p n p' n').WellFormed root := by
  have hnew : (T.move p n p' n').entries p' n' = some (i, d) := by
    unfold DirTree.move
    rw [bind_entries, if_pos ⟨rfl, rfl⟩, hm.source]
  have hcases : ∀ {q m x e}, (T.move p n p' n').entries q m = some (x, e) →
      (q = p' ∧ m = n' ∧ x = i) ∨ (x ≠ i ∧ T.entries q m = some (x, e)) := by
    intro q m x e hx
    rcases (h.move_iff hm.source q m x e).mp hx with ⟨hxi, _, hqm⟩ | ⟨hne, _, hold⟩
    · exact .inl ⟨hqm.1, hqm.2, hxi⟩
    · exact .inr ⟨hne, hold⟩
  have hkeep : ∀ {q m x e}, T.entries q m = some (x, e) → x ≠ i →
      T.entries p' n' ≠ some (x, e) → (T.move p n p' n').entries q m = some (x, e) := by
    intro q m x e hx hxi hxt
    refine (h.move_iff hm.source q m x e).mpr (.inr ⟨hxi, ?_, hx⟩)
    rintro ⟨rfl, rfl⟩
    exact hxt hx
  -- a directory with a binding in it is not the node that loses its name
  have hparent : ∀ {q m x e}, T.entries q m = some (x, e) → ∀ e', T.entries p' n' ≠ some (q, e') :=
    fun hx e' ht => (hm.target _ e' ht).ne hx rfl
  -- what is not below the moved node keeps its path
  have houtside : ∀ {x y}, T.Below x y → ¬ T.Below i y → (∀ e, T.entries p' n' ≠ some (y, e)) →
      (T.move p n p' n').Below x y := by
    intro x y hxy
    induction hxy with
    | self => exact fun _ _ => .self
    | step _ bound ih =>
      intro hy hyt
      refine .step (ih (fun hp => hy (.step hp bound)) (hparent bound)) (hkeep bound ?_ (hyt _))
      rintro rfl
      exact hy .self
  have hp' : ∀ e, T.entries p' n' ≠ some (p', e) := by
    intro e ht
    exact (hm.target p' e ht).ne ht rfl
  have hi : (T.move p n p' n').Below root i := .step (houtside hm.reach hm.above hp') hnew
  have hbelow : ∀ {y}, T.Below root y → (∀ e, T.entries p' n' ≠ some (y, e)) →
      (T.move p n p' n').Below root y := by
    intro y hy
    induction hy with
    | self => exact fun _ => .self
    | @step q y m e above bound ih =>
      intro hyt
      by_cases hyi : y = i
      · exact hyi ▸ hi
      · exact .step (ih (hparent bound)) (hkeep bound hyi (hyt e))
  have hdir : ∀ {x}, T.IsDir x → (∀ e, T.entries p' n' ≠ some (x, e)) →
      (T.move p n p' n').IsDir x := by
    rintro x ⟨q, m, hx⟩ hxt
    by_cases hxi : x = i
    · subst hxi
      have hd := h.kind hx hm.source
      exact ⟨p', n', hd ▸ hnew⟩
    · exact ⟨q, m, hkeep hx hxi (hxt true)⟩
  refine ⟨hdir h.root_dir fun e ht => h.ne_root (hm.target root e ht) rfl,
    fun q m q' m' x e e' hx hx' => ?_, fun q m x e hx => ?_, fun q m x e hx => ?_⟩
  · rcases hcases hx with ⟨hq, hm₁, hxi⟩ | ⟨hne, hold⟩ <;>
      rcases hcases hx' with ⟨hq', hm₂, hxi'⟩ | ⟨hne', hold'⟩
    · exact ⟨hq.trans hq'.symm, hm₁.trans hm₂.symm⟩
    · exact absurd hxi hne'
    · exact absurd hxi' hne
    · exact h.once q m q' m' x e e' hold hold'
  · rcases hcases hx with ⟨rfl, _⟩ | ⟨_, hold⟩
    · exact hdir hm.dir hp'
    · exact hdir (h.parent q m x e hold) (hparent hold)
  · rcases hcases hx with ⟨rfl, _⟩ | ⟨_, hold⟩
    · exact hbelow hm.reach hp'
    · exact hbelow (h.reached q m x e hold) (hparent hold)

/-- A move takes the node of its target away first. -/
theorem move_remove (hne : ¬ (p = p' ∧ n = n')) :
    (T.remove p' n').move p n p' n' = T.move p n p' n' := by
  unfold DirTree.move DirTree.remove
  rw [bind_entries, if_neg hne]
  unfold bind
  dsimp only
  congr 1
  funext q m
  by_cases hqm : q = p' ∧ m = n'
  · rw [if_pos hqm, if_pos hqm]
  · rw [if_neg hqm, if_neg hqm, if_neg hqm]

theorem WellFormed.movable_remove (h : T.WellFormed root) (hm : T.Movable root p n p' n' i d)
    {e : Bool} (hj : T.entries p' n' = some (j, e)) (hij : i ≠ j) :
    (T.remove p' n').Movable root p n p' n' i d := by
  have hempty := hm.target j e hj
  have hwf := h.remove hj hempty
  have hp' : (T.remove p' n').IsDir p' := by
    obtain ⟨q, m, hb⟩ := hm.dir
    exact ⟨q, m, (h.remove_iff hj q m p' true).mpr ⟨hempty.ne hj, hb⟩⟩
  have hbelow : ∀ {x y}, (T.remove p' n').Below x y → T.Below x y := by
    intro x y hxy
    induction hxy with
    | self => exact .self
    | step _ bound ih => exact .step ih (remove_some bound).2
  refine ⟨(h.remove_iff hj p n i d).mpr ⟨hij, hm.source⟩, hp', ?_, fun hb => hm.above (hbelow hb),
    fun x e' hx => ?_⟩
  · obtain ⟨q, m, hb⟩ := hp'
    exact hwf.below ⟨q, m, true, hb⟩
  · exact absurd ⟨rfl, rfl⟩ (remove_some hx).1

/-! ## Operations -/

open Classical in
/-- The binding of a node that is no directory is removed. -/
noncomputable def unlink (T : DirTree ι ν) (p : ι) (n : ν) : Except TreeError (DirTree ι ν) :=
  match T.entries p n with
  | none => .error .notFound
  | some (_, true) => .error .isDirectory
  | some (_, false) => .ok (T.remove p n)

open Classical in
/-- The binding of an empty directory is removed. -/
noncomputable def rmdir (T : DirTree ι ν) (p : ι) (n : ν) : Except TreeError (DirTree ι ν) :=
  match T.entries p n with
  | none => .error .notFound
  | some (_, false) => .error .notDirectory
  | some (i, true) => if T.Empty i then .ok (T.remove p n) else .error .notEmpty

open Classical in
/-- A node gets another name; a non-empty directory does not lose its name. -/
noncomputable def rename (T : DirTree ι ν) (p : ι) (n : ν) (p' : ι) (n' : ν) :
    Except TreeError (DirTree ι ν) :=
  match T.entries p n with
  | none => .error .notFound
  | some _ =>
    if ∃ j e, T.entries p' n' = some (j, e) ∧ ¬ T.Empty j then .error .notEmpty
    else .ok (T.move p n p' n')

end DirTree

end Pylib
