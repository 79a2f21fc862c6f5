import VeratyFS.Lib.Account
import VeratyFS.ModuleState

/-!
# References and counters

The file system seen as reference counting: `Fs.account s h` is the account of the hash `h` — its
counter and flag in the hash table, its references in all block lists, its requests in
`GC.remove_uses`, its items in `write_buffer`.

* `Sound` — what every reachable state satisfies: a hash that anything mentions is in the table,
  and every entry's chunk has a free list.
* `Policy` — which postings are allowed, as far as the calls depend on it.
* `dedup_account`, `dropBlocks_account` — the calls of the operations as runs of postings.
-/

set_option autoImplicit false

namespace VeratyFS

open Pylib Refcount

variable {H : Type} [DecidableEq H] {cfg : Config} {P : Packages H} {g g' : Globals H}

/-! ## References -/

/-- How often a hash occurs in a block list. -/
def occurrences (h : H) (bs : List (FileBlock H)) : Nat := bs.countP fun b => b.hash = h

/-- The number of file blocks with a hash, over the block lists of all inodes. -/
def Fs.refs (s : Fs H) (h : H) : Nat := s.inodes.d.total fun f => occurrences h f.data

theorem occurrences_pos {h : H} {bs : List (FileBlock H)} :
    0 < occurrences h bs ↔ ∃ b ∈ bs, b.hash = h := by
  unfold occurrences
  rw [List.countP_pos_iff]
  simp

theorem occurrences_append (h : H) (bs bs' : List (FileBlock H)) :
    occurrences h (bs ++ bs') = occurrences h bs + occurrences h bs' := List.countP_append

theorem occurrences_eq_count (h : H) (bs : List (FileBlock H)) :
    occurrences h bs = (bs.map FileBlock.hash).count h := by
  unfold occurrences List.count
  rw [List.countP_map]
  congr 1

/-- **No reference** means that no inode's block list mentions the hash. -/
theorem refs_eq_zero {s : Fs H} {h : H} :
    s.refs h = 0 ↔ ∀ fh f, s.inodes.d.get? fh = some f → ∀ b ∈ f.data, b.hash ≠ h := by
  unfold Fs.refs
  rw [Dict.total_eq_zero]
  constructor
  · intro hz fh f hf b hb hbh
    have hpos : 0 < occurrences h f.data := occurrences_pos.mpr ⟨b, hb, hbh⟩
    have := hz fh f hf
    omega
  · intro hno fh f hf
    have : ¬ 0 < occurrences h f.data := fun hpos => by
      obtain ⟨b, hb, hbh⟩ := occurrences_pos.mp hpos
      exact hno fh f hf b hb hbh
    omega

theorem occurrences_le_refs {s : Fs H} {fh : Nat} {f : FileInode H}
    (hf : s.inodes.d.get? fh = some f) (h : H) : occurrences h f.data ≤ s.refs h := by
  have := s.inodes.d.total_erase (fun f => occurrences h f.data) fh
  rw [hf] at this
  unfold Fs.refs
  simp only [Option.map_some, Option.getD_some] at this
  omega

/-- The references after an inode was set. -/
theorem refs_setItem (s : Fs H) (fh : Nat) (f : FileInode H) (h : H) (g : Globals H) :
    (Fs.mk (s.inodes.setItem fh f) g).refs h +
      ((s.inodes.d.get? fh).map fun f => occurrences h f.data).getD 0 =
      s.refs h + occurrences h f.data :=
  s.inodes.d.total_set (fun f => occurrences h f.data) fh f

theorem refs_setItem_of_some {s : Fs H} {fh : Nat} {f : FileInode H}
    (hf : s.inodes.d.get? fh = some f) (f' : FileInode H) (h : H) (g : Globals H) :
    (Fs.mk (s.inodes.setItem fh f') g).refs h + occurrences h f.data =
      s.refs h + occurrences h f'.data := by
  have := refs_setItem s fh f' h g
  rwa [hf] at this

/-- Every inode number fits its database key. -/
def KeysFit (s : Fs H) : Prop :=
  ∀ fh f, s.inodes.d.get? fh = some f → (toBytes 64 fh).isSome

theorem refs_delItem {s : Fs H} (hk : KeysFit s) {fh : Nat} {f : FileInode H}
    (hf : s.inodes.d.get? fh = some f) (h : H) (g : Globals H) :
    (Fs.mk (s.inodes.delItem fh).2 g).refs h + occurrences h f.data = s.refs h := by
  have := s.inodes.d.total_erase (fun f => occurrences h f.data) fh
  rw [hf] at this
  unfold Fs.refs
  dsimp only
  rw [FSMeta.delItem_d _ (hk fh f hf) ((Dict.contains_iff _).mpr ⟨f, hf⟩)]
  exact this

theorem Reread.refs {fh : Nat} {s s' : Fs H} (hr : Reread fh s s') (h : H) : s'.refs h = s.refs h := by
  refine Dict.total_congr fun k => ?_
  by_cases e : k = fh
  · subst e
    rcases hr.self with ⟨h₁, h₂⟩ | ⟨f, f', h₁, h₂, ho⟩
    · rw [h₁, h₂]
    · rw [h₁, h₂]
      simp [ho.data]
  · rw [hr.others k e]

/-! ## Accounts -/

/-- The account of a hash, for given numbers of references and of drops not yet reported. -/
def Globals.account (g : Globals H) (h : H) (refs debt : Nat) : Account where
  uses := (g.hashTable.d.get? h).map Block.uses
  flag := ((g.hashTable.d.get? h).map Block.DELETED).getD false
  refs := refs
  debt := debt
  owed := g.removeUses.count h
  pending := g.writeBuffer.d.countP fun q => q.hash = h

/-- The account of a hash in a state. -/
def Fs.account (s : Fs H) (h : H) : Account := s.globals.account h (s.refs h) 0

theorem account_congr (ht : ∀ k, g'.hashTable.d.get? k = g.hashTable.d.get? k)
    (hq : g'.writeBuffer.d = g.writeBuffer.d) (hr : g'.removeUses = g.removeUses) (h : H)
    (refs debt : Nat) : g'.account h refs debt = g.account h refs debt := by
  unfold Globals.account
  rw [ht h, hq, hr]

theorem CachesOnly.account (hc : CachesOnly g g') (h : H) (refs debt : Nat) :
    g'.account h refs debt = g.account h refs debt :=
  account_congr (fun k => by rw [hc.hashTable]) (by rw [hc.writeBuffer]) hc.removeUses h refs debt

/-- Tables with the same account of a hash, and as many references to it. -/
theorem Fs.account_congr {s s' : Fs H} {h : H}
    (hg : s'.globals.account h (s.refs h) 0 = s.globals.account h (s.refs h) 0)
    (hrefs : s'.refs h = s.refs h) : s'.account h = s.account h := by
  unfold Fs.account
  rw [hrefs, hg]

/-- A hash in the table has a counter. -/
theorem account_known {h : H} {b : Block H} (hb : g.hashTable.d.get? h = some b) (refs debt : Nat) :
    (g.account h refs debt).uses = some b.uses := by
  unfold Globals.account
  rw [hb]
  rfl

theorem account_unknown {h : H} (hb : g.hashTable.d.get? h = none) (refs debt : Nat) :
    (g.account h refs debt).uses = none := by
  unfold Globals.account
  rw [hb]
  rfl

/-- What every reachable state satisfies. -/
structure Sound (s : Fs H) : Prop where
  keysFit : KeysFit s
  placed : Placed s.globals
  remembered : Remembered s.globals
  closed : ∀ h, (s.account h).Closed

/-- A referenced hash is in the table. -/
theorem Sound.known {s : Fs H} (hs : Sound s) {h : H} (hr : 0 < s.refs h) :
    ∃ b, s.globals.hashTable.d.get? h = some b := by
  cases hb : s.globals.hashTable.d.get? h with
  | some b => exact ⟨b, rfl⟩
  | none =>
    have hz : s.refs h = 0 := (hs.closed h (account_unknown hb _ _)).2.1
    omega

theorem Sound.known_of_owed {s : Fs H} (hs : Sound s) {h : H} (hr : h ∈ s.globals.removeUses) :
    ∃ b, s.globals.hashTable.d.get? h = some b :=
  (contains_iff_get? _ _).mp (hs.remembered.removeUses h hr)

/-! ## A policy and the tasks -/

/-- What the policies below have in common: an unflagged hash may be referred to, and nothing
    forbids to enter, release or collect. -/
structure Policy (D : Account → Posting → Prop) : Prop where
  unflagged : ∀ a, a.flag = false → D a .acquire
  enter : ∀ a, D a .enter
  release : ∀ a, D a .release
  collect : ∀ a, D a .collect

variable {D : Account → Posting → Prop}

/-- A chunk is one operation on the account of its hash and none on the others. -/
theorem Refers.account {c h : H} (hD : Policy D) (hr : Refers c g g') (refs debt : Nat)
    (hflag : c = h → ∀ b, g.hashTable.d.get? h = some b → b.DELETED = true → ∀ a, D a .acquire) :
    (accounts.meeting D).Reaches (g.account h refs debt)
      (g'.account h (refs + if c = h then 1 else 0) debt) := by
  by_cases hch : c = h
  · subst hch
    rw [if_pos rfl]
    cases hr with
    | known b entry table queue kept =>
      refine .single (e := .acquire) ⟨?_, ?_⟩
      · change ((g.hashTable.d.get? c).map Block.uses).map _ = _
        unfold Globals.account
        rw [table, if_pos rfl, entry, queue, kept.removeUses]
        rfl
      · cases hdel : b.DELETED with
        | true => exact hflag rfl b entry hdel _
        | false =>
          refine hD.unflagged _ ?_
          unfold Globals.account
          rw [entry]
          exact hdel
    | new q entry hash table queue kept =>
      refine .single (e := .enter) ⟨?_, hD.enter _⟩
      change (if (g.hashTable.d.get? c).map Block.uses = none then _ else none) = _
      rw [entry]
      unfold Globals.account
      rw [table, if_pos rfl, queue, kept.removeUses, List.countP_append, List.countP_singleton]
      simp [hash, placeholder]
  · rw [if_neg hch, Nat.add_zero]
    have heq : g'.account h refs debt = g.account h refs debt := by
      cases hr with
      | known b entry table queue kept =>
        unfold Globals.account
        rw [table, if_neg hch, queue, kept.removeUses]
      | new q entry hash table queue kept =>
        unfold Globals.account
        rw [table, if_neg hch, queue, kept.removeUses, List.countP_append, List.countP_singleton,
          hash]
        simp [hch]
    rw [heq]
    exact .refl _ _

/-- The hashes of the chunks that `dedup` cuts data into. -/
def chunkHashes (cfg : Config) (P : Packages H) (data : Bytes) : List H :=
  (dedupPieces cfg P data).1.map P.xxh3_64

/-- The policy lets `dedup` refer to a hash: it does not meet the hash, or the entry is not
    flagged. -/
def AcquireAllowed (D : Account → Posting → Prop) (cfg : Config) (P : Packages H) (g : Globals H)
    (h : H) (data : Bytes) : Prop :=
  h ∈ chunkHashes cfg P data → ∀ b, g.hashTable.d.get? h = some b → b.DELETED = true →
    ∀ a, D a .acquire

/-- **`dedup` adds as many references as it lists blocks.** -/
theorem dedup_account (hD : Policy D) {data : Bytes} {bs : List (FileBlock H)}
    (hrun : dedup cfg P data g = (.ok bs, g')) (hp : Placed g) {h : H}
    (hallow : AcquireAllowed D cfg P g h data) (refs : Nat) :
    (accounts.meeting D).Reaches (g.account h refs 0) (g'.account h (refs + occurrences h bs) 0) ∧
      Placed g' := by
  let I : List H → Globals H → Prop := fun done g' =>
    (accounts.meeting D).Reaches (g.account h refs 0) (g'.account h (refs + done.count h) 0) ∧
      Placed g' ∧ ∀ b, g'.hashTable.d.get? h = some b → b.DELETED = true →
        ∃ b₀, g.hashTable.d.get? h = some b₀ ∧ b₀.DELETED = true
  have hstart : I [] g := ⟨.refl _ _, hp, fun b hb hd => ⟨b, hb, hd⟩⟩
  obtain ⟨bs', g₁, done, hrun', ⟨hreach, hplaced, _⟩, hdone, _⟩ :=
    dedupChunks_invariant P (dedupPieces cfg P data).2 (dedupPieces cfg P data).1 [] (I := I) hstart
      (fun done c g₁ g₂ hc hI href => by
        obtain ⟨hreach, hplaced, hflag⟩ := hI
        refine ⟨hreach.trans ?_, href.placed hplaced, fun b hb hd => ?_⟩
        · rw [List.count_cons]
          have := href.account hD (refs + done.count h) 0 (h := h) fun hch b hb hd a => by
            obtain ⟨b₀, hb₀, hd₀⟩ := hflag b hb hd
            exact hallow (List.mem_map.mpr ⟨c, hc, hch⟩) b₀ hb₀ hd₀ a
          rw [Nat.add_assoc] at this
          simpa using this
        · cases href with
          | known b₁ entry table _ _ =>
            rw [table] at hb
            split at hb
            · rename_i hch
              cases hb
              exact hflag b₁ (hch ▸ entry) hd
            · exact hflag b hb hd
          | new q _ _ table _ _ =>
            rw [table] at hb
            split at hb
            · cases hb
              cases hd
            · exact hflag b hb hd)
  have heq : dedup cfg P data g = (.ok bs', g₁) := hrun'
  rw [hrun] at heq
  cases heq
  refine ⟨?_, hplaced⟩
  rw [hdone, List.append_nil, List.count_reverse, ← occurrences_eq_count] at hreach
  exact hreach

/-- A reported drop is a request on the account of its hash. -/
theorem Dropped.account {now : Time} {k h : H} {b : Block H} (hd : Dropped now k b g g')
    (hb : g.hashTable.d.get? k = some b) (refs debt : Nat)
    (hD : k = h → ∀ a, a.refs = refs → D a .request) :
    (accounts.meeting D).Reaches (g.account h refs (debt + if k = h then 1 else 0))
      (g'.account h refs debt) := by
  by_cases hkh : k = h
  · subst hkh
    rw [if_pos rfl]
    refine .single (e := .request) ⟨?_, hD rfl _ rfl⟩
    change (if 0 < debt + 1 ∧ ((g.hashTable.d.get? k).map Block.uses).isSome then _ else none) = _
    rw [hb, if_pos ⟨by omega, rfl⟩]
    unfold Globals.account
    rw [hd.table, if_pos rfl, hd.removeUses, hd.writeBuffer, hb, List.count_append,
      List.count_singleton]
    simp
  · rw [if_neg hkh]
    have heq : g'.account h refs debt = g.account h refs debt := by
      unfold Globals.account
      rw [hd.table, if_neg hkh, hd.removeUses, hd.writeBuffer, List.count_append,
        List.count_singleton]
      simp [hkh]
    rw [heq]
    exact .refl _ _

theorem dropBlocks_account_from (clock : Nat → Time) : ∀ (bs : List (FileBlock H)) (n : Nat)
    {g : Globals H}, (∀ b ∈ bs, ∃ e, g.hashTable.d.get? b.hash = some e) → Placed g →
    ∃ g', Py.forEach (fun i : FileBlock H × Nat => updateIndexRemove cfg (clock i.2) i.1.hash)
        (bs.zipIdx n) g = (.ok (), g') ∧ Placed g' ∧
      ∀ (D : Account → Posting → Prop) (h : H) (refs : Nat),
        (0 < occurrences h bs → ∀ a, a.refs = refs → D a .request) →
        (accounts.meeting D).Reaches (g.account h refs (occurrences h bs)) (g'.account h refs 0)
  | [], _, g, _, hp => ⟨g, rfl, hp, fun _ _ _ _ => .refl _ _⟩
  | b :: bs, n, g, hknown, hp => by
    obtain ⟨e, he⟩ := hknown b List.mem_cons_self
    obtain ⟨g₁, hrun, hd⟩ := updateIndexRemove_run cfg (clock n) he
      (hp.entries _ _ he)
    obtain ⟨g₂, hrun₂, hp₂, hreach⟩ := dropBlocks_account_from clock bs (n + 1) (g := g₁)
      (fun x hx => by
        obtain ⟨e', he'⟩ := hknown x (List.mem_cons_of_mem _ hx)
        rw [hd.table]
        split
        · exact ⟨_, rfl⟩
        · exact ⟨e', he'⟩) (hd.placed he hp)
    refine ⟨g₂, ?_, hp₂, fun D h refs hD => ?_⟩
    · rw [List.zipIdx_cons]
      exact (Py.run_bind_ok (f := fun _ => Py.forEach _ _) hrun).trans hrun₂
    · have hone := hd.account (D := D) (h := h) he refs (occurrences h bs)
        fun hbh => hD (occurrences_pos.mpr ⟨b, List.mem_cons_self, hbh⟩)
      have hsplit : occurrences h (b :: bs) = occurrences h bs + if b.hash = h then 1 else 0 := by
        unfold occurrences
        rw [List.countP_cons]
        simp
      rw [hsplit]
      refine hone.trans (hreach D h refs fun hpos => hD ?_)
      rw [hsplit]
      omega

/-- **The drops of a block list settle as many debts**, and none of them raises. -/
theorem dropBlocks_account (cfg : Config) (clock : Nat → Time) {bs : List (FileBlock H)}
    (hknown : ∀ b ∈ bs, ∃ e, g.hashTable.d.get? b.hash = some e) (hp : Placed g) :
    ∃ g', dropBlocks cfg clock bs g = (.ok (), g') ∧ Placed g' ∧
      ∀ (D : Account → Posting → Prop) (h : H) (refs : Nat),
        (0 < occurrences h bs → ∀ a, a.refs = refs → D a .request) →
        (accounts.meeting D).Reaches (g.account h refs (occurrences h bs)) (g'.account h refs 0) :=
  dropBlocks_account_from clock bs 0 hknown hp

end VeratyFS
