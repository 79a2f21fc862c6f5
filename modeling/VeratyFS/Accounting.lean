import VeratyFS.References

/-!
# Every step is a run of postings

* `FsStep.admits` — what a step must satisfy for its postings to follow a policy.
* `fsStep_account` — under it, the account of each hash moves by postings of the policy.
* `Sound.step`, `Sound.fresh` — `Sound` holds in every reachable state.
* `accounts_run` — an invariant of accounts that a policy keeps is an invariant of the file system.
-/

set_option autoImplicit false

namespace VeratyFS

open Pylib Refcount

variable {H : Type} [DecidableEq H] {cfg : Config} {P : Packages H} {g g' : Globals H}
  {D : Account → Posting → Prop}

/-! ## The collector and the writer -/

/-- A round is a collection on the account of its hash. -/
theorem Collected.account {now : Time} {k : H} {rest : List H} {b : Block H} (hD : Policy D)
    (hq : g.removeUses = k :: rest) (hb : g.hashTable.d.get? k = some b)
    (hc : Collected cfg now k b { g with removeUses := rest } g') (h : H) (refs debt : Nat) :
    (accounts.meeting D).Reaches (g.account h refs debt) (g'.account h refs debt) := by
  by_cases hkh : k = h
  · subst hkh
    refine .single (e := .collect) ⟨?_, hD.collect _⟩
    change (if 0 < g.removeUses.count k then ((g.hashTable.d.get? k).map Block.uses).map _ else none) = _
    rw [hb, hq, List.count_cons_self, if_pos (by omega)]
    unfold Globals.account
    rw [hc.table, if_pos rfl, hc.removeUses, hc.writeBuffer, hb, hq, List.count_cons_self]
    simp [collected]
  · have heq : g'.account h refs debt = g.account h refs debt := by
      unfold Globals.account
      rw [hc.table, if_neg hkh, hc.removeUses, hc.writeBuffer, hq]
      simp [hkh]
    rw [heq]
    exact .refl _ _

/-- **A pass settles requests**, one collection for each round. -/
theorem garbageCollector_account (hD : Policy D) (clock : Nat → Time)
    (hknown : ∀ k ∈ g.removeUses, ∃ b, g.hashTable.d.get? k = some b) (hp : Placed g) :
    Placed (garbageCollector cfg clock g).2 ∧ ∀ (h : H) (refs debt : Nat),
      (accounts.meeting D).Reaches (g.account h refs debt)
        ((garbageCollector cfg clock g).2.account h refs debt) := by
  have := garbageCollector_invariant cfg clock
    (I := fun g' => Placed g' ∧ (∀ (h : H) (refs debt : Nat),
        (accounts.meeting D).Reaches (g.account h refs debt) (g'.account h refs debt)) ∧
      ∀ k ∈ g'.removeUses, ∃ b, g'.hashTable.d.get? k = some b)
    (fun g' hI => hI.2.2)
    (fun g₁ g₂ now k rest b hI hq hb hc => by
      obtain ⟨hplaced, hreach, hkn⟩ := hI
      refine ⟨?_, fun h refs debt => (hreach h refs debt).trans (hc.account hD hq hb h refs debt),
        fun x hx => ?_⟩
      · have hp₁ : Placed { g₁ with removeUses := rest } :=
          ⟨hplaced.entries, hplaced.stores, hplaced.nonempty⟩
        exact hc.placed hb hp₁
      · rw [hc.removeUses] at hx
        obtain ⟨b', hb'⟩ := hkn x (by rw [hq]; exact List.mem_cons_of_mem _ hx)
        rw [hc.table]
        split
        · exact ⟨_, rfl⟩
        · exact ⟨b', hb'⟩)
    (fun g₁ hI => ⟨⟨hI.1.entries, hI.1.stores, hI.1.nonempty⟩, hI.2.1, hI.2.2⟩)
    (g := g) ⟨hp, fun _ _ _ => .refl _ _, hknown⟩
  exact ⟨this.1, this.2.1⟩

/-- The policy lets the writer take the head of the queue. -/
def WriterAllowed (D : Account → Posting → Prop) (cfg : Config) (env : CommitEnv) (s : Fs H)
    (h : H) : Prop :=
  ∀ q ∈ s.globals.writeBuffer.d.head?, q.hash = h →
    D (s.account h) (if commitsHead cfg env s.globals then .install else .lose)

/-- **An iteration of the writer** is an `install`, when its commit succeeds, or a `lose`. -/
theorem WriterEffect.account {s : Fs H} {env : CommitEnv} (hw : WriterEffect cfg env s.globals g')
    {h : H} (hclosed : (s.account h).Closed) (hallow : WriterAllowed D cfg env s h) :
    (accounts.meeting D).Reaches (s.account h) (g'.account h (s.refs h) 0) := by
  cases hw with
  | idle _ same => rw [same]; exact .refl _ _
  | lost q queue failed table stores =>
    have hacc : g'.hashTable.d.get? h = s.globals.hashTable.d.get? h := by rw [table]
    by_cases hq : q.hash = h
    · refine .single (e := .lose) ⟨?_, ?_⟩
      · change (if 0 < s.globals.writeBuffer.d.countP _ then _ else none) = _
        rw [if_pos (by rw [queue, List.countP_cons]; simp [hq])]
        unfold Fs.account Globals.account
        rw [hacc, stores.removeUses, queue, List.countP_cons]
        simp [hq]
      · have := hallow q (by rw [queue]; rfl) hq
        rwa [failed] at this
    · have heq : g'.account h (s.refs h) 0 = s.account h := by
        unfold Fs.account Globals.account
        rw [hacc, stores.removeUses, queue, List.countP_cons]
        simp [hq]
      rw [heq]
      exact .refl _ _
  | installed q b queue committed table uses flag _ _ _ _ freeBlocks removeUses _ =>
    by_cases hq : q.hash = h
    · have hpos : 0 < s.globals.writeBuffer.d.countP fun q => decide (q.hash = h) := by
        rw [queue, List.countP_cons]
        simp [hq]
      have hknown : ((s.globals.hashTable.d.get? h).map Block.uses).isSome := by
        cases hb : s.globals.hashTable.d.get? h with
        | some b => rfl
        | none =>
          have hz : (s.globals.writeBuffer.d.countP fun q => decide (q.hash = h)) = 0 :=
            (hclosed (account_unknown hb _ _)).2.2.2.2
          omega
      refine .single (e := .install) ⟨?_, ?_⟩
      · change (if 0 < s.globals.writeBuffer.d.countP _ ∧
          ((s.globals.hashTable.d.get? h).map Block.uses).isSome then _ else none) = _
        rw [if_pos ⟨hpos, hknown⟩]
        unfold Fs.account Globals.account
        rw [table, if_pos hq, removeUses, queue, List.countP_cons]
        simp [hq, uses, flag]
      · have := hallow q (by rw [queue]; rfl) hq
        rwa [committed] at this
    · have heq : g'.account h (s.refs h) 0 = s.account h := by
        unfold Fs.account Globals.account
        rw [table, if_neg hq, removeUses, queue, List.countP_cons]
        simp [hq]
      rw [heq]
      exact .refl _ _

/-! ## File operations -/

/-- There is room for another inode number. -/
def numbersFit (s : Fs H) : Bool :=
  match s.inodes.max with
  | some m => (toBytes 64 (m + 1)).isSome
  | none => true

/-- Steps that the file system makes: numbers that fit, and a copy to put in place. -/
def FsStep.wellFormed (s : Fs H) : FsStep H → Bool
  | .create _ _ => numbersFit s
  | .copyInode _ => numbersFit s
  | .replaceInode _ tempIno _ => (s.inodes.d.get? tempIno).isSome
  | _ => true

/-- The policy lets a block list be dropped. -/
def DropAllowed (D : Account → Posting → Prop) (s : Fs H) (h : H) (bs : List (FileBlock H)) : Prop :=
  0 < occurrences h bs → ∀ a, a.refs = s.refs h - occurrences h bs → D a .request

/-- What a step must satisfy for its postings on the account of `h` to follow the policy. -/
def FsStep.admits (D : Account → Posting → Prop) (cfg : Config) (P : Packages H) (s : Fs H) (h : H) :
    FsStep H → Prop
  | .write fh offset buf _ => ∀ f, s.inodes.d.get? fh = some f →
    if inMiddle f offset buf.length then
      ∀ sd sb eb data,
        (retrieveData cfg P fh offset buf.length true s).1 = .ok (.whole sd sb eb data) →
        AcquireAllowed D cfg P s.globals h
          (spliceAt data (max 0 sd) ((buf.length : Int) + max 0 sd) buf) ∧
        (occurrences h (popBlocks f.data sb (eb + 1 - sb).toNat) < occurrences h f.data →
          ∀ a, D a .forget)
    else AcquireAllowed D cfg P s.globals h buf
  | .replaceInode fh _ _ => ∀ f, s.inodes.d.get? fh = some f → DropAllowed D s h f.data
  | .remove inodeP name stIno _ => removalRefused s inodeP name = false →
    ∀ f, s.inodes.d.get? stIno = some f → DropAllowed D s h f.data
  | .writerStep env => WriterAllowed D cfg env s h
  | _ => True

theorem occurrences_popBlocks (h : H) : ∀ (n : Nat) (data : List (FileBlock H)) (i : Int),
    occurrences h (popBlocks data i n) ≤ occurrences h data
  | 0, _, _ => Nat.le_refl _
  | n + 1, data, i => by
    rw [popBlocks]
    split
    · exact Nat.le_refl _
    · rename_i data' hp
      exact Nat.le_trans (occurrences_popBlocks h n data' (i + 1)) (countP_popAt_le _ hp)

theorem occurrences_insertBlocks (h : H) : ∀ (bs data : List (FileBlock H)) (i : Int),
    occurrences h (insertBlocks data i bs) = occurrences h data + occurrences h bs
  | [], data, _ => by simp [insertBlocks, occurrences]
  | b :: bs, data, i => by
    rw [insertBlocks, occurrences_insertBlocks h bs]
    unfold occurrences
    simp only [countP_insertAt, List.countP_cons, List.countP_nil]
    omega

theorem occurrences_replaceBlocks (h : H) (data bs : List (FileBlock H)) (sb eb : Int) :
    occurrences h (replaceBlocks data sb eb bs) =
      occurrences h (popBlocks data sb (eb + 1 - sb).toNat) + occurrences h bs :=
  occurrences_insertBlocks h bs _ sb

/-- A step that changes neither the table entry of a hash nor the references to it. -/
theorem reaches_of_refs {s s' : Fs H} {h : H}
    (hg : s'.globals.account h (s.refs h) 0 = s.globals.account h (s.refs h) 0)
    (hrefs : s'.refs h = s.refs h) :
    (accounts.meeting D).Reaches (s.account h) (s'.account h) := by
  rw [Fs.account_congr hg hrefs]
  exact .refl _ _

theorem write_account (hD : Policy D) {s : Fs H} (hs : Sound s) {fh offset : Nat} {buf : Bytes}
    {now : Time} {h : H} (hadm : (FsStep.write fh offset buf now).admits D cfg P s h) :
    (accounts.meeting D).Reaches (s.account h) ((write cfg P fh offset buf now s).2.account h) ∧
      Placed (write cfg P fh offset buf now s).2.globals := by
  cases hf : s.inodes.d.get? fh with
  | none =>
    rw [write_missing hf]
    exact ⟨.refl _ _, hs.placed⟩
  | some f =>
    have hadm := hadm f hf
    by_cases hm : inMiddle f offset buf.length
    · rw [if_pos hm] at hadm
      rcases write_middle cfg P now hf hm with
        ⟨_, hk⟩ | ⟨sd, sb, eb, data, s₁, f₁, blks, g', hr, hk, hf₁, ho, hd, hw⟩
      · refine ⟨?_, hs.placed.of_caches hk.caches⟩
        exact reaches_of_refs (hk.caches.account h _ _) (hk.refs h)
      · obtain ⟨hacq, hforget⟩ := hadm sd sb eb data (by rw [hr])
        have hp₁ : Placed s₁.globals := hs.placed.of_caches hk.caches
        have hacq₁ : AcquireAllowed D cfg P s₁.globals h
            (spliceAt data (max 0 sd) ((buf.length : Int) + max 0 sd) buf) := by
          unfold AcquireAllowed
          rw [hk.caches.hashTable]
          exact hacq
        obtain ⟨hreach, hp₂⟩ := dedup_account hD hd hp₁ hacq₁ (s.refs h)
        rw [hw]
        refine ⟨?_, hp₂⟩
        -- the references of the blocks that were popped are forgotten
        have hle := occurrences_popBlocks h (eb + 1 - sb).toNat f.data sb
        have hown := occurrences_le_refs hf h
        have hrefs : (Fs.mk (s₁.inodes.setItem fh
            (f₁.written (replaceBlocks f₁.data sb eb blks) offset buf.length now)) g').refs h =
            s.refs h + occurrences h blks -
              (occurrences h f.data - occurrences h (popBlocks f.data sb (eb + 1 - sb).toNat)) := by
          have := refs_setItem_of_some hf₁ (f₁.written (replaceBlocks f₁.data sb eb blks) offset buf.length now)
            h g'
          rw [hk.refs h, ho.data] at this
          have hnew : occurrences h (f₁.written (replaceBlocks f.data sb eb blks) offset buf.length
              now).data = _ := occurrences_replaceBlocks h f.data blks sb eb
          rw [ho.data]
          omega
        have hforgets := Account.reaches_forget (D := D)
          (g'.account h (s.refs h + occurrences h blks) 0)
          (occurrences h f.data - occurrences h (popBlocks f.data sb (eb + 1 - sb).toNat))
          (by change _ ≤ s.refs h + occurrences h blks; omega) fun hpos => hforget (by omega)
        rw [hk.caches.account] at hreach
        refine hreach.trans ?_
        unfold Fs.account
        rw [hrefs]
        exact hforgets
    · rw [if_neg hm] at hadm
      obtain ⟨blks, g', hd, hw⟩ := write_append cfg P now hf hm
      obtain ⟨hreach, hp⟩ := dedup_account hD hd hs.placed hadm (s.refs h)
      rw [hw]
      refine ⟨?_, hp⟩
      have hrefs : (Fs.mk (s.inodes.setItem fh (f.written (f.data ++ blks) offset buf.length now))
          g').refs h = s.refs h + occurrences h blks := by
        have := refs_setItem_of_some hf (f.written (f.data ++ blks) offset buf.length now) h g'
        have hnew : occurrences h (f.written (f.data ++ blks) offset buf.length now).data = _ :=
          occurrences_append h f.data blks
        omega
      unfold Fs.account
      rw [hrefs]
      exact hreach

/-- The drops of an inode's blocks: its references become debts, and these are reported. -/
theorem drop_account (cfg : Config) (hD : Policy D) {s : Fs H} (hs : Sound s) {fh : Nat} {f : FileInode H}
    (hf : s.inodes.d.get? fh = some f) (clock : Nat → Time) {bs : List (FileBlock H)}
    (hperm : bs.Perm f.data) :
    ∃ g', dropBlocks cfg clock bs s.globals = (.ok (), g') ∧ Placed g' ∧
      ∀ h, DropAllowed D s h f.data →
        (accounts.meeting D).Reaches (s.account h)
          (g'.account h (s.refs h - occurrences h f.data) 0) := by
  have hocc : ∀ h, occurrences h bs = occurrences h f.data := fun h => hperm.countP_eq _
  obtain ⟨g', hrun, hp, hreach⟩ := dropBlocks_account cfg clock (g := s.globals)
    (fun b hb => hs.known (by
      have h₁ := occurrences_le_refs hf b.hash
      have h₂ : 0 < occurrences b.hash f.data :=
        occurrences_pos.mpr ⟨b, hperm.mem_iff.mp hb, rfl⟩
      omega)) hs.placed
  refine ⟨g', hrun, hp, fun h hallow => ?_⟩
  have hrel := Account.reaches_release (D := D) hD.release (s.account h) (occurrences h f.data)
    (occurrences_le_refs hf h)
  have hreq := hreach D h (s.refs h - occurrences h f.data) fun hpos => hallow (by rwa [hocc] at hpos)
  rw [hocc] at hreq
  refine hrel.trans ?_
  have heq : { s.account h with
      refs := (s.account h).refs - occurrences h f.data
      debt := (s.account h).debt + occurrences h f.data } =
      s.globals.account h (s.refs h - occurrences h f.data) (occurrences h f.data) := by
    unfold Fs.account Globals.account
    simp
  rw [heq]
  exact hreq

/-- An inode without blocks adds no reference. -/
theorem refs_setItem_empty {s : Fs H} {ino : Nat} {f : FileInode H}
    (hn : s.inodes.d.get? ino = none) (hf : f.data = []) (h : H) (g : Globals H) :
    (Fs.mk (s.inodes.setItem ino f) g).refs h = s.refs h := by
  have := refs_setItem s ino f h g
  rw [hn, hf] at this
  exact this

omit [DecidableEq H] in
theorem KeysFit.setItem {s : Fs H} (hk : KeysFit s) {fh : Nat} (hfit : (toBytes 64 fh).isSome)
    (f : FileInode H) (g : Globals H) : KeysFit ⟨s.inodes.setItem fh f, g⟩ :=
  s.inodes.d.forall_set hk hfit

/-- When the copy takes the place of the inode, the references of its old blocks are gone. -/
theorem refs_takePlace {s : Fs H} (hs : KeysFit s) {fh tempIno : Nat} {f fNew : FileInode H}
    (hf : s.inodes.d.get? fh = some f) (ht : s.inodes.d.get? tempIno = some fNew) (h : H)
    (g : Globals H) :
    (Fs.mk ((s.inodes.setItem fh fNew).delItem tempIno).2 g).refs h =
      s.refs h - occurrences h f.data := by
  have hset := refs_setItem_of_some hf fNew h g
  have htemp : (s.inodes.setItem fh fNew).d.get? tempIno = some fNew := by
    rw [FSMeta.setItem_d, Dict.get?_set]
    split
    · rfl
    · exact ht
  have hdel := refs_delItem (hs.setItem (hs fh f hf) fNew g) htemp h g
  change (Fs.mk ((s.inodes.setItem fh fNew).delItem tempIno).2 g).refs h + _ = _ at hdel
  omega

theorem replaceInode_account (hD : Policy D) {s : Fs H} (hs : Sound s) {fh tempIno : Nat}
    {env : CallEnv H} {h : H} (hwf : (s.inodes.d.get? tempIno).isSome = true)
    (hadm : ∀ f, s.inodes.d.get? fh = some f → DropAllowed D s h f.data) :
    (accounts.meeting D).Reaches (s.account h) ((replaceInode cfg env fh tempIno s).2.account h) := by
  rcases replaceInode_cases cfg env fh tempIno s with heq | ⟨f, r, g', hf, hdrop, hrest⟩
  · rw [heq]
    exact .refl _ _
  · obtain ⟨g₁, hrun, _, hreach⟩ := drop_account cfg hD hs hf env.clock (env.order.perm f.data)
    rw [hdrop] at hrun
    cases hrun
    obtain ⟨fNew, ht⟩ := Option.isSome_iff_exists.mp hwf
    rcases hrest with ⟨hbad | hbad, _⟩ | ⟨fNew', _, ht', heq⟩
    · exact absurd rfl hbad
    · rw [ht] at hbad
      cases hbad
    · rw [ht] at ht'
      cases ht'
      rw [heq]
      unfold Fs.account
      rw [refs_takePlace hs.keysFit hf ht]
      exact hreach h (hadm f hf)

theorem removeInode_account (hD : Policy D) {s : Fs H} (hs : Sound s) {inodeP stIno : Nat}
    {name : Bytes} {clock : Nat → Time} {h : H}
    (hadm : removalRefused s inodeP name = false → ∀ f, s.inodes.d.get? stIno = some f →
      DropAllowed D s h f.data) :
    (accounts.meeting D).Reaches (s.account h)
      ((removeInode cfg clock inodeP name stIno s).2.account h) := by
  rcases removeInode_cases cfg clock inodeP name stIno s with
    heq | ⟨f, r, g', hstart, hf, hdrop, hrest⟩
  · rw [heq]
    exact .refl _ _
  · obtain ⟨g₁, hrun, _, hreach⟩ := drop_account cfg hD hs hf clock (.refl f.data)
    rw [hdrop] at hrun
    cases hrun
    rcases hrest with ⟨hbad, _⟩ | ⟨_, heq⟩
    · exact absurd rfl hbad
    · rw [heq]
      have hdel := refs_delItem hs.keysFit hf h g'
      have hrefs : (Fs.mk (s.inodes.delItem stIno).2 g').refs h =
          s.refs h - occurrences h f.data := by omega
      unfold Fs.account
      rw [hrefs]
      exact hreach h (hadm hstart f hf)

/-- **Each step of the file system moves each account by postings of the policy.** -/
theorem fsStep_account (hD : Policy D) {s : Fs H} (hs : Sound s) {e : FsStep H} {h : H}
    (hwf : e.wellFormed s = true) (hadm : e.admits D cfg P s h) :
    (accounts.meeting D).Reaches (s.account h) ((e.exec cfg P s).account h) := by
  cases e with
  | create a now =>
    change (accounts.meeting D).Reaches _ ((create a now s).2.account h)
    rcases create_cases a now s with heq | ⟨ino, f, hnext, hdata, _, _, heq⟩
    · rw [heq]
      exact .refl _ _
    · rw [heq]
      refine reaches_of_refs rfl ?_
      have hset := refs_setItem_empty hnext.unused hdata h s.globals
      unfold Fs.refs at *
      dsimp only at *
      rw [FSMeta.commit_d]
      exact hset
  | read fh offset length now =>
    have hk : Reread fh s _ := read_keeps cfg P fh offset length now s
    exact reaches_of_refs (hk.caches.account h _ _) (hk.refs h)
  | write fh offset buf now => exact (write_account hD hs hadm).1
  | copyInode fh =>
    change (accounts.meeting D).Reaches _ ((copyInode fh s).2.account h)
    cases hf : s.inodes.d.get? fh with
    | none =>
      rw [copyInode_missing hf]
      exact .refl _ _
    | some f =>
      obtain ⟨tempIno, hnext, hrun⟩ := copyInode_run hf
      rw [hrun]
      exact reaches_of_refs rfl (refs_setItem_empty hnext.unused rfl h s.globals)
  | replaceInode fh tempIno env => exact replaceInode_account hD hs hwf hadm
  | setAttributes inode a now =>
    change (accounts.meeting D).Reaches _ ((setAttributes inode a now s).2.account h)
    unfold setAttributes
    cases hf : s.inodes.d.get? inode with
    | none =>
      rw [Py.run_bind_error (inodeAt_missing hf)]
      exact .refl _ _
    | some f =>
      have hrefs : (Fs.mk (s.inodes.setItem inode (f.withAttributes a now)) s.globals).refs h =
          s.refs h := by
        have hset := refs_setItem_of_some hf (f.withAttributes a now) h s.globals
        have hdata : (f.withAttributes a now).data = f.data := rfl
        rw [hdata] at hset
        omega
      rw [Py.run_bind_ok (inodeAt_run hf)]
      exact reaches_of_refs rfl hrefs
  | remove inodeP name stIno clock => exact removeInode_account hD hs hadm
  | flush =>
    have hrefs : (Fs.mk s.inodes.commit { s.globals with hashTable := s.globals.hashTable.commit }).refs h =
        s.refs h := by
      unfold Fs.refs
      dsimp only
      rw [FSMeta.commit_d]
    exact reaches_of_refs rfl hrefs
  | writerStep env =>
    exact (writeNewBlock_effect cfg env s.globals).account (hs.closed h) hadm
  | collect clock =>
    exact (garbageCollector_account hD clock (fun k hk => hs.known_of_owed hk) hs.placed).2 h
      (s.refs h) 0

omit [DecidableEq H] in
theorem KeysFit.delItem {s : Fs H} (hk : KeysFit s) (fh : Nat) (g : Globals H) :
    KeysFit ⟨(s.inodes.delItem fh).2, g⟩ := s.inodes.forall_delItem hk fh

omit [DecidableEq H] in
theorem KeysFit.reread {fh : Nat} {s s' : Fs H} (hk : KeysFit s) (hr : Reread fh s s') :
    KeysFit s' := by
  intro k f' hf
  obtain ⟨f, hf₀, _⟩ := hr.get? k f' hf
  exact hk k f hf₀

omit [DecidableEq H] in
theorem NextNumber.fits {s : Fs H} {ino : Nat} (h : NextNumber s ino) (hs : numbersFit s = true) :
    (toBytes 64 ino).isSome := by
  obtain ⟨m, hm, rfl⟩ := h
  unfold numbersFit at hs
  rwa [hm] at hs

/-- Steps add only numbers that fit. -/
theorem KeysFit.step {s : Fs H} (hs : KeysFit s) {e : FsStep H} (hwf : e.wellFormed s = true) :
    KeysFit (e.exec cfg P s) := by
  cases e with
  | create a now =>
    change KeysFit (create a now s).2
    rcases create_cases a now s with heq | ⟨ino, f, hnext, _, _, _, heq⟩
    · rw [heq]
      exact hs
    · rw [heq]
      intro k f' hk
      rw [FSMeta.commit_d] at hk
      exact hs.setItem (hnext.fits hwf) f s.globals k f' hk
  | read fh offset length now => exact hs.reread (read_keeps cfg P fh offset length now s)
  | write fh offset buf now =>
    change KeysFit (write cfg P fh offset buf now s).2
    cases hf : s.inodes.d.get? fh with
    | none =>
      rw [write_missing hf]
      exact hs
    | some f =>
      by_cases hm : inMiddle f offset buf.length
      · rcases write_middle cfg P now hf hm with
          ⟨_, hk⟩ | ⟨sd, sb, eb, data, s₁, f₁, blks, g', _, hk, _, _, _, hw⟩
        · exact hs.reread hk
        · rw [hw]
          exact (hs.reread hk).setItem (hs fh f hf) _ g'
      · obtain ⟨blks, g', _, hw⟩ := write_append cfg P now hf hm
        rw [hw]
        exact hs.setItem (hs fh f hf) _ g'
  | copyInode fh =>
    change KeysFit (copyInode fh s).2
    cases hf : s.inodes.d.get? fh with
    | none =>
      rw [copyInode_missing hf]
      exact hs
    | some f =>
      obtain ⟨tempIno, hnext, hrun⟩ := copyInode_run hf
      rw [hrun]
      exact hs.setItem (hnext.fits hwf) _ s.globals
  | replaceInode fh tempIno env =>
    change KeysFit (replaceInode cfg env fh tempIno s).2
    rcases replaceInode_cases cfg env fh tempIno s with
      heq | ⟨f, r, g', hf, _, ⟨_, heq⟩ | ⟨fNew, _, _, heq⟩⟩
    · rw [heq]
      exact hs
    · rw [heq]
      exact hs
    · rw [heq]
      exact (hs.setItem (hs fh f hf) fNew g').delItem tempIno g'
  | setAttributes inode a now =>
    change KeysFit (setAttributes inode a now s).2
    unfold setAttributes
    cases hf : s.inodes.d.get? inode with
    | none =>
      rw [Py.run_bind_error (inodeAt_missing hf)]
      exact hs
    | some f =>
      rw [Py.run_bind_ok (inodeAt_run hf)]
      exact hs.setItem (hs inode f hf) _ s.globals
  | remove inodeP name stIno clock =>
    change KeysFit (removeInode cfg clock inodeP name stIno s).2
    rcases removeInode_cases cfg clock inodeP name stIno s with
      heq | ⟨f, r, g', _, _, _, ⟨_, heq⟩ | ⟨_, heq⟩⟩
    · rw [heq]
      exact hs
    · rw [heq]
      exact hs
    · rw [heq]
      exact hs.delItem stIno g'
  | flush =>
    intro k f' hk
    change s.inodes.commit.d.get? k = some f' at hk
    rw [FSMeta.commit_d] at hk
    exact hs k f' hk
  | writerStep env => exact hs
  | collect clock => exact hs

/-! ## Every reachable state -/

omit [DecidableEq H] in
/-- The later steps of a truncation have a copy to put in place. -/
theorem truncating_wellFormed (s : Fs H) (e : FsStep H) (h : e.truncating s) :
    e.wellFormed s = true := by
  cases e with
  | replaceInode fh tempIno env => exact Option.isSome_iff_exists.mpr h
  | create a now => exact h.elim
  | copyInode fh => exact h.elim
  | _ => rfl

/-- No policy forbids anything. -/
theorem policy_true : Policy fun _ _ => True :=
  ⟨fun _ _ => trivial, fun _ => trivial, fun _ => trivial, fun _ => trivial⟩

/-- A policy that restricts only what the writer does admits every other step. -/
theorem admits_of_writer {s : Fs H} {h : H} {e : FsStep H}
    (hD : ∀ a op, op ≠ .install → op ≠ .lose → D a op)
    (hw : ∀ env, e = .writerStep env → WriterAllowed D cfg env s h) : e.admits D cfg P s h := by
  have hacquire : ∀ g data, AcquireAllowed D cfg P g h data := fun _ _ _ _ _ _ a =>
    hD a .acquire (fun h => by cases h) (fun h => by cases h)
  have hrequest : ∀ bs, DropAllowed D s h bs := fun _ _ a _ =>
    hD a .request (fun h => by cases h) (fun h => by cases h)
  cases e with
  | write fh offset buf now =>
    intro f _
    split
    · exact fun _ _ _ _ _ => ⟨hacquire _ _, fun _ a =>
        hD a .forget (fun h => by cases h) (fun h => by cases h)⟩
    · exact hacquire _ _
  | replaceInode fh tempIno env => exact fun _ _ => hrequest _
  | remove inodeP name stIno clock => exact fun _ _ _ => hrequest _
  | writerStep env => exact hw env rfl
  | _ => trivial

theorem admits_true (s : Fs H) (h : H) (e : FsStep H) : e.admits (fun _ _ => True) cfg P s h :=
  admits_of_writer (fun _ _ _ _ => trivial) fun _ _ _ _ _ => trivial

/-- **Sound is kept by every step.** -/
theorem Sound.step {s : Fs H} (hs : Sound s) {e : FsStep H} (hwf : e.wellFormed s = true) :
    Sound (e.exec cfg P s) where
  keysFit := hs.keysFit.step hwf
  placed := ((placed_preserved cfg).step ⟨hs.placed, hs.remembered⟩ e).1
  remembered := (remembered_preserved cfg).step hs.remembered e
  closed h := (fsStep_account policy_true hs hwf (admits_true s h e)).invariant
    (fun _ _ _ hc ha => hc.apply ha.1) (hs.closed h)

/-- **An invariant of accounts that a policy keeps is an invariant of the file system**, in runs
whose steps follow the policy. -/
theorem accounts_run (hD : Policy D) {I : Account → Prop}
    (hI : ∀ a a' op, a.Closed → I a → a.apply op = some a' → D a op → I a')
    {C : Fs H → FsStep H → Prop}
    (hC : ∀ s e, C s e → e.wellFormed s = true ∧ ∀ h, e.admits D cfg P s h) {s s' : Fs H}
    {es : List (FsStep H)} (hrun : ((fileSystem cfg P).meeting C).Run s es s') (hs : Sound s)
    (h₀ : ∀ h, I (s.account h)) : Sound s' ∧ ∀ h, I (s'.account h) := by
  refine hrun.invariant (I := fun s => Sound s ∧ ∀ h, I (s.account h)) ?_ ⟨hs, h₀⟩
  rintro s e s' ⟨hs, hI₀⟩ ⟨rfl, hc⟩
  obtain ⟨hwf, hadm⟩ := hC s e hc
  refine ⟨hs.step hwf, fun h => ?_⟩
  have hreach := fsStep_account hD hs hwf (hadm h)
  refine (hreach.invariant (I := fun a => a.Closed ∧ I a) ?_ ⟨hs.closed h, hI₀ h⟩).2
  rintro a op a' ⟨hclosed, hIa⟩ ⟨happly, hallowed⟩
  exact ⟨hclosed.apply happly, hI a a' op hclosed hIa happly hallowed⟩

/-! ## A new file system -/

section

variable {cacheSize : Nat} {hpos : 0 < cacheSize} {ds mds : List (DataStore H)}

theorem fresh_account (h : H) : (Fs.fresh cacheSize hpos ds mds).account h = ⟨none, false, 0, 0, 0, 0⟩ :=
  rfl

/-- A new file system over numbered stores is sound. -/
theorem Sound.fresh (hne : ds ≠ []) (hnum : Numbered ds) :
    Sound (Fs.fresh cacheSize hpos ds mds) where
  keysFit := by
    intro fh f hf
    unfold Fs.fresh initFileSystem at hf
    rw [FSMeta.setItem_d, Dict.get?_set] at hf
    split at hf
    · rename_i hroot
      rw [← hroot]
      decide
    · cases hf
  placed := by
    have hlen : ((Fs.fresh cacheSize hpos ds mds).globals.freeBlocks).length = ds.length + mds.length := by
      change ((ds ++ mds).map fun _ => (Dict.empty : IOBTree)).length = _
      rw [List.length_map, List.length_append]
    have hds : 0 < ds.length := List.length_pos_iff.mpr hne
    refine ⟨fun h b hb => (by cases hb), fun j chunk hj => ?_, by omega⟩
    have hj' : (ds.map DataStore.chunk)[j]? = some chunk := hj
    obtain ⟨hlt, _⟩ := List.getElem?_eq_some_iff.mp hj'
    rw [List.length_map] at hlt
    rw [hnum j chunk hj']
    exact Option.isSome_iff_exists.mpr ⟨j, index?_natCast (by omega)⟩
  remembered := ⟨fun _ hh => (by cases hh), fun _ hh => by cases hh⟩
  closed h := by
    rw [fresh_account]
    exact fun _ => ⟨rfl, rfl, rfl, rfl, rfl⟩

end

end VeratyFS
