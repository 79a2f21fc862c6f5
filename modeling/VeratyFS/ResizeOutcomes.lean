import VeratyFS.Resizing

/-!
# All or nothing

* `AllOrNothing` — a resize gives the size and adds no inode, or raises and changes nothing.
* `setattrUnder_iff` — it is all or nothing exactly if the resize returns: no call raises, and the
  copy gets the size.
* `resizeReturns_iff` — of a file with served blocks this is said by the calls alone.
-/

set_option autoImplicit false

namespace VeratyFS

open Pylib

variable {H : Type} [DecidableEq H] {φ : Faults H} {cfg : Config} {P : Packages H} {env : CallEnv H}
  {s : Fs H} {inode n : Nat} {f : FileInode H} {a : SetattrFields}

/-- What a failed resize must not change of an inode. -/
def FileInode.listed {H : Type} (f : FileInode H) : Bytes × List (FileBlock H) × Nat :=
  (f.name, f.data, f.size)

/-- **All or nothing**: the call returns the size it was asked for and adds no inode, or it raises and
the table is as before; and no inode that is new has the name of the file. -/
structure AllOrNothing (s : Fs H) (f : FileInode H) (n : Nat)
    (out : Except PyError EntryAttributes × Fs H) : Prop where
  outcome : (∃ attrs, out.1 = .ok attrs ∧ attrs.stSize = n ∧
      ∀ k, out.2.inodes.d.contains k = true → s.inodes.d.contains k = true) ∨
    (∃ e, out.1 = .error e) ∧ ∀ k, (out.2.inodes.d.get? k).map FileInode.listed =
      (s.inodes.d.get? k).map FileInode.listed
  temporary : ∀ k f', s.inodes.d.get? k = none → out.2.inodes.d.get? k = some f' → f'.name ≠ f.name

/-- No call of the resize raises, and a copy gets the size. -/
def ResizeReturns (φ : Faults H) (cfg : Config) (P : Packages H) (env : CallEnv H) (inode : Nat)
    (f : FileInode H) (n : Nat) (s : Fs H) : Prop :=
  f.size = n ∨ (f.size < n ∧ φ (.write 0) = none) ∨
    (n < f.size ∧ ∃ tempIno, NextNumber s tempIno ∧ Truncates φ cfg P env inode f n s tempIno)

theorem resizeReturns_grow (hlt : f.size < n) :
    ResizeReturns φ cfg P env inode f n s ↔ φ (.write 0) = none := by
  unfold ResizeReturns
  constructor
  · rintro (h | ⟨_, h⟩ | ⟨h, _⟩)
    · omega
    · exact h
    · omega
  · exact fun h => .inr (.inl ⟨hlt, h⟩)

theorem resizeReturns_shrink (hlt : n < f.size) {tempIno : Nat} (hnext : NextNumber s tempIno) :
    ResizeReturns φ cfg P env inode f n s ↔ Truncates φ cfg P env inode f n s tempIno := by
  unfold ResizeReturns
  constructor
  · rintro (h | ⟨h, _⟩ | ⟨_, k, hk, h⟩)
    · omega
    · omega
    · exact hk.unique hnext ▸ h
  · exact fun h => .inr (.inr ⟨hlt, tempIno, hnext, h⟩)

/-- The size part of `setattr` returns in any case. -/
theorem updateSizeUnder_cases (hf : s.inodes.d.get? inode = some f) (hown : f.inode = inode)
    (φ : Faults H) (cfg : Config) (P : Packages H) (env : CallEnv H) (n : Nat) :
    ∃ s₁ f₁, updateSizeUnder φ cfg P env f (some n) s = (.ok (), s₁) ∧
      s₁.inodes.d.get? inode = some f₁ ∧
      (ResizeReturns φ cfg P env inode f n s ↔
        f₁.size = n ∧ ∀ k, s₁.inodes.d.contains k = true → s.inodes.d.contains k = true) := by
  unfold updateSizeUnder resizeUnder
  dsimp only
  rw [hown]
  rcases Nat.lt_trichotomy f.size n with hlt | rfl | hlt
  · rw [if_pos hlt]
    rw [resizeReturns_grow hlt]
    rcases interrupted_cases (φ (.write 0)) (write cfg P inode f.size
      (List.replicate (n - f.size) 0) (env.clock 0)) s with ⟨hφ, hrun⟩ | ⟨y, hφ, hrun⟩
    · have hm : ¬ inMiddle f f.size (List.replicate (n - f.size) (0 : UInt8)).length :=
        fun h => Nat.not_lt.mpr (Nat.le_add_right _ _) h.2.2
      obtain ⟨blks, g', _, hw⟩ := write_append cfg P (env.clock 0) hf hm
      rw [hw] at hrun
      refine ⟨_, _, Py.run_attempt_ok (Py.run_bind_ok hrun), Dict.get?_set_self _ _ _, ?_⟩
      refine ⟨fun _ => ⟨?_, fun k hk => ?_⟩, fun _ => hφ⟩
      · change max f.size (f.size + (List.replicate (n - f.size) (0 : UInt8)).length) = n
        rw [List.length_replicate]
        omega
      · exact (numbers_of_setItem hf _ k).symm.trans hk
    · refine ⟨_, f, Py.run_attempt_error (Py.run_bind_error hrun), hf, ?_⟩
      rw [hφ]
      exact ⟨fun h => (by cases h), fun h => absurd h.1 (Nat.ne_of_lt hlt)⟩
  · rw [if_neg (Nat.lt_irrefl _), if_neg (Nat.lt_irrefl _)]
    exact ⟨s, f, rfl, hf, ⟨fun _ => ⟨rfl, fun _ hk => hk⟩, fun _ => .inl rfl⟩⟩
  · rw [if_neg (Nat.lt_asymm hlt), if_pos hlt]
    obtain ⟨tempIno, s₁, f₁, hnext, hrun, hf₁, hiff⟩ :=
      truncateDownUnder_cases φ cfg P hf env n
    exact ⟨s₁, f₁, Py.run_attempt_ok hrun, hf₁, (resizeReturns_shrink hlt hnext).trans hiff⟩

/-- **A resize is all or nothing exactly if it returns**, in every state and whatever raises. -/
theorem setattrUnder_iff (hf : s.inodes.d.get? inode = some f) (hown : f.inode = inode)
    (ha : a.stSize = some n) :
    AllOrNothing s f n (setattrUnder φ cfg P env inode a s) ↔
      ResizeReturns φ cfg P env inode f n s := by
  obtain ⟨s₁, f₁, hupdate, hf₁, hiff⟩ := updateSizeUnder_cases hf hown φ cfg P env n
  have hrun : setattrUnder φ cfg P env inode a s =
      (.ok ((f₁.withAttributes a (env.clock 0)).attributes inode),
        { s₁ with inodes := s₁.inodes.setItem inode (f₁.withAttributes a (env.clock 0)) }) := by
    unfold setattrUnder
    rw [Py.run_bind_ok (inodeAt_run hf), ha, Py.run_bind_ok hupdate]
    exact setAttributes_getattr hf₁ a (env.clock 0)
  have hnumbers := numbers_of_setItem hf₁ (f₁.withAttributes a (env.clock 0))
  rw [hiff, hrun]
  constructor
  · rintro ⟨⟨attrs, hattrs, hsize, hadded⟩ | ⟨⟨e, he⟩, _⟩, _⟩
    · cases hattrs
      exact ⟨hsize, fun k hk => hadded k ((hnumbers k).trans hk)⟩
    · cases he
  · rintro ⟨hsize, hadded⟩
    have hkept : ∀ k, (s₁.inodes.setItem inode (f₁.withAttributes a (env.clock 0))).d.contains k =
        true → s.inodes.d.contains k = true := fun k hk => hadded k ((hnumbers k).symm.trans hk)
    refine ⟨.inl ⟨_, rfl, hsize, hkept⟩, fun k f' hk hf' => ?_⟩
    obtain ⟨f₀, hf₀⟩ := (Dict.contains_iff _).mp (hkept k ((Dict.contains_iff _).mpr ⟨f', hf'⟩))
    rw [hk] at hf₀
    cases hf₀

/-- The calls of a resize. -/
def resizeCalls {H : Type} (f : FileInode H) (n : Nat) : List InnerCall :=
  if f.size < n then [.write 0] else if n < f.size then truncateCalls f n else []

/-- **Of a file with served blocks**, the calls alone say whether the resize returns. -/
theorem resizeReturns_iff {content : H → Bytes} (hP : P.Lawful)
    (hfile : SoundFile cfg P content s inode f) (hplaced : Placed s.globals)
    (hstore : ∀ d ∈ resizeWrites content f n, ∀ c ∈ (dedupPieces cfg P d).1,
      Storable cfg P content s.globals c)
    (hfit : n < f.size → ∀ m, s.inodes.max = some m → m + 1 < 256 ^ 64) :
    ResizeReturns φ cfg P env inode f n s ↔ ∀ c ∈ resizeCalls f n, φ c = none := by
  unfold resizeCalls
  unfold resizeWrites at hstore
  rcases Nat.lt_trichotomy f.size n with hlt | rfl | hlt
  · rw [if_pos hlt, List.forall_mem_singleton]
    exact resizeReturns_grow hlt
  · rw [if_neg (Nat.lt_irrefl _), if_neg (Nat.lt_irrefl _)]
    exact ⟨fun _ _ hc => absurd hc List.not_mem_nil, fun _ => .inl rfl⟩
  · rw [if_neg (Nat.lt_asymm hlt), if_pos hlt] at hstore ⊢
    obtain ⟨m, hm, _⟩ := s.inodes.max_spec hfile.file
    have hnext : NextNumber s (m + 1) := ⟨m, hm, rfl⟩
    have htruncates : Truncates φ cfg P env inode f n s (m + 1) ↔ _ :=
      truncates_iff hP φ hfile hplaced (Nat.le_of_lt hlt) hstore hnext.unused (hfit hlt m hm)
    exact (resizeReturns_shrink hlt hnext).trans htruncates

/-- **When a resize is all or nothing**: exactly if it returns.  It raises in no case, and of a file
with served blocks it returns exactly if none of its calls is made to raise. -/
theorem setattr_all_or_nothing_iff (φ : Faults H) (cfg : Config) (P : Packages H) (env : CallEnv H)
    (hf : s.inodes.d.get? inode = some f) (hown : f.inode = inode) (ha : a.stSize = some n) :
    (AllOrNothing s f n (setattrUnder φ cfg P env inode a s) ↔
      ResizeReturns φ cfg P env inode f n s) ∧
    ∀ content : H → Bytes, P.Lawful → SoundFile cfg P content s inode f → Placed s.globals →
      (∀ d ∈ resizeWrites content f n, ∀ c ∈ (dedupPieces cfg P d).1,
        Storable cfg P content s.globals c) →
      (n < f.size → ∀ m, s.inodes.max = some m → m + 1 < 256 ^ 64) →
      (ResizeReturns φ cfg P env inode f n s ↔ ∀ c ∈ resizeCalls f n, φ c = none) :=
  ⟨setattrUnder_iff hf hown ha, fun _ hP hfile hplaced hstore hfit =>
    resizeReturns_iff hP hfile hplaced hstore hfit⟩

/-- The read of the second round raises. -/
def secondRead : Faults Bytes := fun c => if c = .read 1 then some ⟨.ioError, id⟩ else none

theorem setattr_all_or_nothing_iff_sample :
    ∃ f, twoBlocksFs.inodes.d.get? 2 = some f ∧ ¬ AllOrNothing twoBlocksFs f 3
      (setattrUnder secondRead .shipped .plain ⟨fun _ => 0, .listed Bytes⟩ 2 { stSize := some 3 }
        twoBlocksFs) := by
  obtain ⟨f, hfile, hdata, hsize⟩ := twoBlocks_sound
  obtain ⟨hiff, hcalls⟩ := setattr_all_or_nothing_iff secondRead .shipped .plain
    ⟨fun _ => 0, .listed Bytes⟩ hfile.file hfile.own
    (show ({ stSize := some 3 } : SetattrFields).stSize = some 3 from rfl)
  refine ⟨f, hfile.file, fun h => ?_⟩
  have hreturns := (hcalls id Packages.plain_lawful hfile twoBlocks_placed (twoBlocks_writes hdata hsize)
    fun _ => twoBlocks_next).mp (hiff.mp h) (.read 1) ?_
  · cases hreturns
  · rw [show resizeCalls f 3 = truncateCalls f 3 by rw [resizeCalls, hsize]; rfl, truncateCalls, hdata]
    decide

/-- The bytes of the second block are lost: no cache and no store has them. -/
def lostBlockFs : Fs Bytes :=
  { twoBlocksFs with globals := { twoBlocksFs.globals with
      writeReadCache := twoBlocksFs.globals.writeReadCache.erase [8, 9, 10] } }

/-- **A failed truncation**: the block cannot be read, `setattr` reports the old size, and the copy
stays in the table. -/
theorem setattr_all_or_nothing_fails :
    ¬ ∀ (φ : Faults Bytes) (cfg : Config) (P : Packages Bytes) (env : CallEnv Bytes) (s : Fs Bytes)
      (inode n : Nat) (f : FileInode Bytes) (a : SetattrFields),
      s.inodes.d.get? inode = some f → f.inode = inode → a.stSize = some n →
        AllOrNothing s f n (setattrUnder φ cfg P env inode a s) := by
  intro h
  have hfile : (lostBlockFs.inodes.d.get? 2).map FileInode.inode = some 2 := by decide +kernel
  obtain ⟨f, hf, hown⟩ := Option.map_eq_some_iff.mp hfile
  have hone := h (fun _ => none) .shipped .plain ⟨fun _ => 0, .listed Bytes⟩ lostBlockFs 2 3 f
    { stSize := some 3 } hf hown rfl
  have hreply : (setattrUnder (fun _ => none) .shipped .plain ⟨fun _ => 0, .listed Bytes⟩ 2
      { stSize := some 3 } lostBlockFs).1.map EntryAttributes.stSize = .ok 4 := by decide +kernel
  rcases hone.outcome with ⟨attrs, hattrs, hsize, _⟩ | ⟨⟨e, he⟩, _⟩
  · rw [hattrs] at hreply
    have hold : attrs.stSize = 4 := Except.ok.inj hreply
    omega
  · rw [he] at hreply
    cases hreply

end VeratyFS
