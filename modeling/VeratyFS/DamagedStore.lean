import Mathlib.Data.List.TakeWhile
import VeratyFS.DurableInodes
import VeratyFS.OperationSpec

/-!
# Starting from a damaged inode store

`init_from_disk` stops at the first record that cannot be decoded and keeps what it had read;
`Operations.__init__` takes an empty table for a new file system.  What of the store survives?

* `RawStore` — the records as the database iterates over them: in byte order of their keys.
* `FSMeta.ofStore`, `FSMeta.started` — the table after the two constructors.
* `ofStore_get?` — the table has the records before the first one that cannot be decoded.
* `Covered` — some inode is numbered at or above every record that was not loaded.
* `damaged_store_kept` — when the start loses no record, and when no later number is that of one.
* `damaged_store_lost` — a new root over the old one.
-/

set_option autoImplicit false

namespace VeratyFS

open Pylib

variable {H : Type}

/-- An inode database: the records in the order of `iteritems`. -/
structure RawStore where
  records : List (Bytes × Bytes)
  ordered : records.Pairwise fun r r' => r.1 < r'.1
  sized : ∀ r ∈ records, r.1.length = 64

section Loading

-- `pickle.loads`; `none` is any exception
variable (loads : Bytes → Option (FileInode H))

/-- The record can be decoded. -/
def decodes (r : Bytes × Bytes) : Bool := (loads r.2).isSome

/-- The loop of `init_from_disk`; the exception of a record ends it, and what was read stays. -/
def loadRecords : List (Bytes × Bytes) → Dict Nat (FileInode H) → Dict Nat (FileInode H)
  | [], d => d
  | r :: it, d =>
    match loads r.2 with
    | none => d
    | some vi => loadRecords it (d.set (fromBytes r.1) vi.reloaded)

/-- `FSMeta.__init__`; of the database, the records that can be decoded. -/
def FSMeta.ofStore (st : RawStore) (replication : Bool) (mirror : Dict Bytes (FileInode H)) :
    FSMeta H where
  d := loadRecords loads st.records Dict.empty
  pending := Dict.empty
  ht := (st.records.filterMap fun r => (loads r.2).map (r.1, ·)).foldl
    (fun d e => d.set e.1 e.2) Dict.empty
  replication := replication
  mirror := mirror

/-- The records that were not loaded. -/
def RawStore.unread (st : RawStore) : List Nat :=
  (st.records.dropWhile (decodes loads)).map fun r => fromBytes r.1

/-- The number is the key of a record: one that can be decoded, as the table's calls left it, or one
    that cannot. -/
def RawStore.occupies (st : RawStore) (t : FSMeta H) (k : Nat) : Prop :=
  (decoded t.ht k).isSome ∨ ∃ r ∈ st.records, loads r.2 = none ∧ fromBytes r.1 = k

end Loading

/-- `Operations.__init__`. -/
def FSMeta.started (uid gid : Nat) (now : Time) (t : FSMeta H) : FSMeta H :=
  if t.d.size = 0 then initFileSystem uid gid now t else t

/-! ## Keys -/

theorem toBytes_fromBytes (n : Bytes) : toBytes n.length (fromBytes n) = some n := by
  induction n with
  | nil => rfl
  | cons b n ih =>
    have hb : b.toNat < 256 := b.toNat_lt
    have hdiv : (b.toNat + 256 * fromBytes n) / 256 = fromBytes n := by omega
    have hmod : (b.toNat + 256 * fromBytes n) % 256 = b.toNat := by omega
    rw [List.length_cons, toBytes, fromBytes, hdiv, hmod, ih]
    simp

namespace RawStore

variable (st : RawStore)

theorem key {st : RawStore} {r : Bytes × Bytes} (hr : r ∈ st.records) :
    toBytes 64 (fromBytes r.1) = some r.1 := by
  have h := toBytes_fromBytes r.1
  rwa [st.sized r hr] at h

/-- No two records have one number. -/
theorem numbers_nodup : (st.records.map fun r => fromBytes r.1).Nodup := by
  have hkeys : (st.records.map Prod.fst).Nodup := by
    refine List.pairwise_map.mpr (st.ordered.imp fun {r r'} h e => ?_)
    rw [e] at h
    exact List.lt_irrefl _ h
  refine List.Nodup.map_on (fun r hr r' hr' h => ?_) hkeys.of_map
  have hk := st.key hr
  rw [h, st.key hr'] at hk
  exact List.inj_on_of_nodup_map hkeys hr hr' (Option.some.inj hk).symm

theorem eq_of_number {r r' : Bytes × Bytes} (hr : r ∈ st.records) (hr' : r' ∈ st.records)
    (h : fromBytes r.1 = fromBytes r'.1) : r = r' :=
  List.inj_on_of_nodup_map st.numbers_nodup hr hr' h

end RawStore

/-! ## What is loaded -/

section Start

variable {loads : Bytes → Option (FileInode H)} {st : RawStore} {replication : Bool}
  {mirror : Dict Bytes (FileInode H)} {k : Nat}

theorem loadRecords_eq (records : List (Bytes × Bytes)) (d : Dict Nat (FileInode H)) :
    loadRecords loads records d =
      ((records.takeWhile (decodes loads)).filterMap fun r =>
        ((loads r.2).map FileInode.reloaded).map (fromBytes r.1, ·)).foldl
          (fun d e => d.set e.1 e.2) d := by
  induction records generalizing d with
  | nil => rfl
  | cons r it ih =>
    unfold loadRecords
    cases h : loads r.2 with
    | none => simp [decodes, h]
    | some vi =>
      have hd : decodes loads r = true := by simp [decodes, h]
      rw [List.takeWhile_cons_of_pos hd, List.filterMap_cons, h]
      exact ih _

/-- **The table has the records before the first one that cannot be decoded.** -/
theorem ofStore_get? {f : FileInode H} :
    (FSMeta.ofStore loads st replication mirror).d.get? k = some f ↔
      ∃ r ∈ st.records.takeWhile (decodes loads), fromBytes r.1 = k ∧
        (loads r.2).map FileInode.reloaded = some f := by
  unfold FSMeta.ofStore
  rw [loadRecords_eq]
  refine Dict.get?_foldl_filterMap (fun r : Bytes × Bytes => fromBytes r.1)
    (fun r => (loads r.2).map FileInode.reloaded) ?_
  exact ((List.takeWhile_sublist _).map _).nodup st.numbers_nodup

/-- The database has the records that can be decoded. -/
theorem ofStore_ht {f : FileInode H} {n : Bytes} :
    (FSMeta.ofStore loads st replication mirror).ht.get? n = some f ↔
      ∃ r ∈ st.records, r.1 = n ∧ loads r.2 = some f := by
  have hkeys : (st.records.map Prod.fst).Nodup :=
    List.Nodup.of_map fromBytes (by rw [List.map_map]; exact st.numbers_nodup)
  exact Dict.get?_foldl_filterMap Prod.fst (fun r => loads r.2) hkeys

theorem ofStore_keyed : Keyed (FSMeta.ofStore loads st replication mirror).ht := by
  intro n f hn
  obtain ⟨r, hr, rfl, _⟩ := ofStore_ht.mp hn
  exact ⟨_, st.key hr⟩

/-- Of a store without damage this is `init_from_disk`. -/
theorem ofStore_undamaged (h : ∀ r ∈ st.records, decodes loads r = true) (k : Nat) :
    (FSMeta.ofStore loads st replication mirror).d.get? k =
      (FSMeta.ofStore loads st replication mirror).initFromDisk.d.get? k := by
  rw [initFromDisk_d_get? ofStore_keyed]
  refine Option.ext fun f => ?_
  rw [ofStore_get?, List.takeWhile_eq_self_iff.mpr h, Option.map_eq_some_iff]
  constructor
  · rintro ⟨r, hr, rfl, hf⟩
    obtain ⟨g, hg, rfl⟩ := Option.map_eq_some_iff.mp hf
    exact ⟨g, by rw [decoded_of_key (st.key hr), ofStore_ht.mpr ⟨r, hr, rfl, hg⟩], rfl⟩
  · rintro ⟨g, hg, rfl⟩
    obtain ⟨n, hn, hget⟩ := Option.bind_eq_some_iff.mp hg
    obtain ⟨r, hr, rfl, hload⟩ := ofStore_ht.mp hget
    exact ⟨r, hr, fromBytes_toBytes hn, by rw [hload]; rfl⟩

/-- **The loaded records** are all that can be decoded exactly if those sort before the others. -/
theorem takeWhile_decodes_iff :
    (∀ r ∈ st.records, decodes loads r = true → r ∈ st.records.takeWhile (decodes loads)) ↔
      ∀ r ∈ st.records, ∀ r' ∈ st.records, decodes loads r = true → decodes loads r' = false →
        r.1 < r'.1 := by
  have hsplit := List.takeWhile_append_dropWhile (p := decodes loads) (l := st.records)
  have hordered := st.ordered
  rw [← hsplit, List.pairwise_append] at hordered
  obtain ⟨_, hrest, hbefore⟩ := hordered
  constructor
  · intro h r hr r' hr' hd hd'
    refine hbefore r (h r hr hd) r' ?_
    rw [← hsplit] at hr'
    refine (List.mem_append.mp hr').resolve_left fun hmem => ?_
    rw [List.mem_takeWhile_imp hmem] at hd'
    cases hd'
  · intro h r hr hd
    have hmem := hr
    rw [← hsplit] at hmem
    refine (List.mem_append.mp hmem).resolve_right fun hdrop => ?_
    -- the first record after the loaded ones cannot be decoded, and no later key is smaller
    cases hw : st.records.dropWhile (decodes loads) with
    | nil =>
      rw [hw] at hdrop
      cases hdrop
    | cons r₀ rest =>
      have hd₀ : decodes loads r₀ = false := by
        have hhead := List.head?_dropWhile_not (decodes loads) st.records
        rw [hw] at hhead
        simpa using hhead
      have hr₀ : r₀ ∈ st.records := (List.dropWhile_sublist _).subset (hw ▸ List.mem_cons_self)
      have hlt := h r hr r₀ hr₀ hd hd₀
      rw [hw] at hdrop hrest
      rcases List.mem_cons.mp hdrop with rfl | hdrop
      · exact List.lt_irrefl _ hlt
      · exact List.lt_irrefl _ (List.lt_trans hlt ((List.pairwise_cons.mp hrest).1 r hdrop))

/-- The table is empty exactly if the first record cannot be decoded. -/
theorem ofStore_size :
    (FSMeta.ofStore loads st replication mirror).d.size = 0 ↔
      ¬ ∃ r, st.records.head? = some r ∧ decodes loads r = true := by
  rw [Dict.size_eq_zero]
  constructor
  · rintro h ⟨r, hr, hd⟩
    obtain ⟨it, hit⟩ := List.head?_eq_some_iff.mp hr
    obtain ⟨f, hf⟩ := Option.isSome_iff_exists.mp hd
    have hget : (FSMeta.ofStore loads st replication mirror).d.get? (fromBytes r.1) =
        some f.reloaded :=
      ofStore_get?.mpr ⟨r, by rw [hit, List.takeWhile_cons_of_pos hd]; exact List.mem_cons_self, rfl,
        by rw [hf]; rfl⟩
    rw [h] at hget
    cases hget
  · intro h k
    cases hget : (FSMeta.ofStore loads st replication mirror).d.get? k with
    | none => rfl
    | some f =>
      obtain ⟨r, hr, _⟩ := ofStore_get?.mp hget
      cases hrecords : st.records with
      | nil =>
        rw [hrecords] at hr
        cases hr
      | cons r₀ it =>
        refine absurd ⟨r₀, by rw [hrecords]; rfl, ?_⟩ h
        by_contra hd
        rw [hrecords, List.takeWhile_cons_of_neg hd] at hr
        cases hr

/-- The root of a new file system is the only inode that the start adds. -/
theorem started_get? {t : FSMeta H} {uid gid : Nat} {now : Time}
    (hk : t.d.size = 0 → k ≠ ROOT_INODE) : (t.started uid gid now).d.get? k = t.d.get? k := by
  unfold FSMeta.started
  split
  · rename_i h
    exact Dict.get?_set_ne _ _ fun e => hk h e.symm
  · rfl

/-- **What the start loses**: nothing exactly if the records that can be decoded sort before the others,
and the first one can, or none is that of the root. -/
theorem started_iff (uid gid : Nat) (now : Time) :
    let t := FSMeta.ofStore loads st replication mirror
    ((∀ r ∈ st.records, ∀ f, loads r.2 = some f →
        (t.started uid gid now).d.get? (fromBytes r.1) = some f.reloaded) ∧
      (t.d.size = 0 → ∀ r ∈ st.records, fromBytes r.1 ≠ ROOT_INODE)) ↔
    (∀ r ∈ st.records, ∀ r' ∈ st.records, decodes loads r = true → decodes loads r' = false →
        r.1 < r'.1) ∧
      ((∃ r, st.records.head? = some r ∧ decodes loads r = true) ∨
        ∀ r ∈ st.records, fromBytes r.1 ≠ ROOT_INODE) := by
  intro t
  rw [← takeWhile_decodes_iff]
  constructor
  · rintro ⟨hloaded, hroot⟩
    refine ⟨fun r hr hd => ?_, ?_⟩
    · obtain ⟨f, hf⟩ := Option.isSome_iff_exists.mp hd
      have hget := hloaded r hr f hf
      rw [started_get? fun h => hroot h r hr] at hget
      obtain ⟨r', hr', hnumber, _⟩ := ofStore_get?.mp hget
      exact st.eq_of_number ((List.takeWhile_sublist _).subset hr') hr hnumber ▸ hr'
    · by_cases hfirst : ∃ r, st.records.head? = some r ∧ decodes loads r = true
      · exact .inl hfirst
      · exact .inr (hroot (ofStore_size.mpr hfirst))
  · rintro ⟨hpre, hroot⟩
    have hroot : t.d.size = 0 → ∀ r ∈ st.records, fromBytes r.1 ≠ ROOT_INODE := fun h =>
      hroot.resolve_left (ofStore_size.mp h)
    refine ⟨fun r hr f hf => ?_, hroot⟩
    rw [started_get? fun h => hroot h r hr]
    exact ofStore_get?.mpr ⟨r, hpre r hr (by simp [decodes, hf]), rfl, by rw [hf]; rfl⟩

end Start

/-! ## Later numbers -/

/-- The calls that the operations make on the table. -/
inductive MetaCall (H : Type) where
  | setItem (k : Nat) (f : FileInode H)
  | update (k : Nat) (f : FileInode H)
  | delItem (k : Nat)
  | commit

/-- The table after a call, whether it returns or raises. -/
def MetaCall.exec : MetaCall H → FSMeta H → FSMeta H
  | .setItem k f, t => t.setItem k f
  | .update k f, t => t.update k f
  | .delItem k, t => (t.delItem k).2
  | .commit, t => t.commit

def metaCalls : System (FSMeta H) (MetaCall H) := .ofFun MetaCall.exec

/-- Some inode other than the given one is numbered at or above every number of the list. -/
def coveredWithout (U : List Nat) (t : FSMeta H) (gone : Option Nat) : Bool :=
  t.d.keys.any fun k => decide (some k ≠ gone) && U.all fun u => decide (u ≤ k)

/-- A deletion leaves an inode numbered at or above every number of the list. -/
def MetaCall.covers (U : List Nat) (t : FSMeta H) : MetaCall H → Bool
  | .delItem k => coveredWithout U t (some k)
  | _ => true

section Runs

variable {U : List Nat} {t t' : FSMeta H}

theorem coveredWithout_iff {gone : Option Nat} :
    coveredWithout U t gone = true ↔
      ∃ k, (∃ f, t.d.get? k = some f) ∧ some k ≠ gone ∧ ∀ u ∈ U, u ≤ k := by
  simp [coveredWithout, Dict.mem_keys_iff]

/-- An inode covers the numbers of the list, and every other record is that of an inode. -/
structure Covered (U : List Nat) (t : FSMeta H) : Prop where
  above : ∃ k, (∃ f, t.d.get? k = some f) ∧ ∀ u ∈ U, u ≤ k
  pending : ∀ k f, t.pending.get? k = some f → ∃ g, t.d.get? k = some g
  keyed : Keyed t.ht
  records : ∀ k f, decoded t.ht k = some f → k ∈ U ∨ ∃ g, t.d.get? k = some g

theorem Covered.setItem (h : Covered U t) (k : Nat) (f : FileInode H) :
    Covered U (t.setItem k f) := by
  have hd : ∀ x, (∃ g, t.d.get? x = some g) → ∃ g, (t.setItem k f).d.get? x = some g := by
    rintro x ⟨g, hg⟩
    rw [FSMeta.setItem_d, Dict.get?_set]
    split
    · exact ⟨f, rfl⟩
    · exact ⟨g, hg⟩
  obtain ⟨k', hk', habove⟩ := h.above
  refine ⟨⟨k', hd k' hk', habove⟩, fun x g hx => ?_, h.keyed, fun x g hx =>
    (h.records x g hx).imp_right (hd x)⟩
  replace hx : (t.pending.set k f).get? x = some g := hx
  rw [Dict.get?_set] at hx
  split at hx
  · rename_i e
    subst e
    exact ⟨f, by rw [FSMeta.setItem_d, Dict.get?_set_self]⟩
  · exact hd x (h.pending x g hx)

theorem Covered.update (h : Covered U t) (k : Nat) (f : FileInode H) : Covered U (t.update k f) := by
  have hd : ∀ x, (∃ g, t.d.get? x = some g) → ∃ g, (t.update k f).d.get? x = some g := by
    rintro x ⟨g, hg⟩
    rw [FSMeta.update_d, Dict.get?_modify]
    split
    · exact ⟨f, by rw [hg]; rfl⟩
    · exact ⟨g, hg⟩
  obtain ⟨k', hk', habove⟩ := h.above
  refine ⟨⟨k', hd k' hk', habove⟩, fun x g hx => ?_, h.keyed, fun x g hx =>
    (h.records x g hx).imp_right (hd x)⟩
  replace hx : (t.pending.modify k fun _ => f).get? x = some g := hx
  rw [Dict.get?_modify] at hx
  split at hx
  · rename_i e
    subst e
    obtain ⟨g', hg', _⟩ := Option.map_eq_some_iff.mp hx
    exact hd k (h.pending k g' hg')
  · exact hd x (h.pending x g hx)

/-- A deletion that leaves an inode above. -/
theorem Covered.delItem (h : Covered U t) {k : Nat}
    (habove : coveredWithout U t (some k) = true) : Covered U (t.delItem k).2 := by
  cases hn : toBytes 64 k with
  | none =>
    have hsame : (t.delItem k).2 = t := by
      unfold FSMeta.delItem FSMeta.removeFromDisk
      rw [hn]
    rwa [hsame]
  | some n =>
    obtain ⟨d', hd', ht'⟩ := t.delItem_snd hn
    rw [ht']
    have hd : ∀ x, k ≠ x → (∃ g, t.d.get? x = some g) → ∃ g, d'.get? x = some g := by
      rintro x hne ⟨g, hg⟩
      exact ⟨g, by rw [hd', if_neg hne, hg]⟩
    obtain ⟨k', hk', hne, hle⟩ := coveredWithout_iff.mp habove
    refine ⟨⟨k', hd k' (fun e => hne (e ▸ rfl)) hk', hle⟩, fun x g hx => ?_, h.keyed.erase n,
      fun x g hx => ?_⟩
    · replace hx : (t.pending.erase k).get? x = some g := hx
      rw [Dict.get?_erase] at hx
      split at hx
      · cases hx
      · rename_i e
        exact hd x e (h.pending x g hx)
    · replace hx : decoded (t.ht.erase n) x = some g := hx
      rw [decoded_erase hn] at hx
      split at hx
      · cases hx
      · rename_i e
        exact (h.records x g hx).imp_right (hd x e)

/-- The keys of a batch that could be built fit. -/
theorem batch_fits {l : List (Nat × FileInode H)} {l' : List (Bytes × FileInode H)}
    (h : (l.mapM fun e => (toBytes 64 e.1).map (·, e.2)) = some l') :
    ∀ e ∈ l, (toBytes 64 e.1).isSome := by
  induction l generalizing l' with
  | nil =>
    intro e he
    cases he
  | cons e l ih =>
    rw [List.mapM_cons] at h
    obtain ⟨b, hb, h⟩ := Option.bind_eq_some_iff.mp h
    obtain ⟨l'', hl'', _⟩ := Option.bind_eq_some_iff.mp h
    obtain ⟨n, hn, _⟩ := Option.map_eq_some_iff.mp hb
    intro e' he'
    rcases List.mem_cons.mp he' with rfl | he'
    · rw [hn]
      rfl
    · exact ih hl'' e' he'

theorem Covered.commit (h : Covered U t) : Covered U t.commit := by
  have hht : Keyed t.commit.ht ∧
      ∀ k f, decoded t.commit.ht k = some f → k ∈ U ∨ ∃ g, t.d.get? k = some g := by
    unfold FSMeta.commit FSMeta.batchSaveToDisk
    cases hb : FSMeta.batch t.pending with
    | none => exact ⟨h.keyed, h.records⟩
    | some l =>
      have hfits : ∀ k f, t.pending.get? k = some f → (toBytes 64 k).isSome := fun k f hk =>
        batch_fits hb (k, f) (t.pending.mem_entries_iff.mpr hk)
      obtain ⟨l', hl', hkeyed, hdecoded⟩ := batch_pending hfits h.keyed
      rw [hb] at hl'
      cases hl'
      refine ⟨hkeyed, fun x g hx => ?_⟩
      rw [hdecoded] at hx
      cases hp : t.pending.get? x with
      | some f => exact .inr (h.pending x f hp)
      | none =>
        rw [hp] at hx
        exact h.records x g hx
  obtain ⟨k, hk, habove⟩ := h.above
  refine ⟨⟨k, ?_, habove⟩, fun k f hk => ?_, hht.1, fun x g hx => ?_⟩
  · rwa [FSMeta.commit_d]
  · rw [FSMeta.commit_pending] at hk
    cases hk
  · rw [FSMeta.commit_d]
    exact hht.2 x g hx

/-- **One call** keeps the numbers covered. -/
theorem Covered.exec (h : Covered U t) {c : MetaCall H} (hc : c.covers U t = true) :
    Covered U (c.exec t) := by
  cases c with
  | setItem k f => exact h.setItem k f
  | update k f => exact h.update k f
  | delItem k => exact h.delItem hc
  | commit => exact h.commit

/-- The next number is above the list, and no record has it. -/
theorem Covered.next (h : Covered U t) {g : Globals H} {n : Nat}
    (hn : (genInodeNumber ⟨t, g⟩).1 = .ok n) : n ∉ U ∧ decoded t.ht n = none := by
  obtain ⟨m, hm, rfl⟩ := genInodeNumber_ok hn
  have hle : ∀ k, (∃ f, t.d.get? k = some f) → k ≤ m := by
    rintro k ⟨f, hf⟩
    obtain ⟨m', hm', hle⟩ := t.max_spec hf
    rw [show t.max = some m from hm] at hm'
    cases hm'
    exact hle k f hf
  obtain ⟨k, hk, habove⟩ := h.above
  have hU : m + 1 ∉ U := by
    intro hmem
    have := hle k hk
    have := habove _ hmem
    omega
  refine ⟨hU, ?_⟩
  cases hd : decoded t.ht (m + 1) with
  | none => rfl
  | some f =>
    have := hle _ ((h.records _ f hd).resolve_left hU)
    omega

end Runs

/-- A covered start. -/
theorem started_covered {loads : Bytes → Option (FileInode H)} {st : RawStore} {replication : Bool}
    {mirror : Dict Bytes (FileInode H)} {uid gid : Nat} {now : Time}
    (habove : coveredWithout (st.unread loads)
      ((FSMeta.ofStore loads st replication mirror).started uid gid now) none = true) :
    Covered (st.unread loads)
      ((FSMeta.ofStore loads st replication mirror).started uid gid now) := by
  obtain ⟨k, hk, _, hle⟩ := coveredWithout_iff.mp habove
  have hkeyed : Keyed (FSMeta.ofStore loads st replication mirror).ht := ofStore_keyed
  have hrecords : ∀ k f, decoded (FSMeta.ofStore loads st replication mirror).ht k = some f →
      k ∈ st.unread loads ∨ ∃ g, (FSMeta.ofStore loads st replication mirror).d.get? k = some g := by
    intro k f hd
    obtain ⟨n, hn, hget⟩ := Option.bind_eq_some_iff.mp hd
    obtain ⟨r, hr, rfl, hload⟩ := ofStore_ht.mp hget
    obtain rfl : fromBytes r.1 = k := fromBytes_toBytes hn
    rw [← List.takeWhile_append_dropWhile (p := decodes loads) (l := st.records)] at hr
    rcases List.mem_append.mp hr with hr | hr
    · exact .inr ⟨f.reloaded, ofStore_get?.mpr ⟨r, hr, rfl, by rw [hload]; rfl⟩⟩
    · exact .inl (List.mem_map.mpr ⟨r, hr, rfl⟩)
  unfold FSMeta.started at hk ⊢
  split
  · rename_i hsize
    rw [if_pos hsize] at hk
    refine ⟨⟨k, hk, hle⟩, fun x f hx => ?_, hkeyed, fun x f hx => ?_⟩
    · replace hx : (Dict.empty.set ROOT_INODE _).get? x = some f := hx
      rw [Dict.get?_set] at hx
      split at hx
      · rename_i e
        exact ⟨f, e ▸ (Dict.get?_set_self _ _ _).trans hx⟩
      · cases hx
    · rcases hrecords x f hx with hU | ⟨g, hg⟩
      · exact .inl hU
      · rw [(Dict.size_eq_zero _).mp hsize] at hg
        cases hg
  · rename_i hsize
    rw [if_neg hsize] at hk
    exact ⟨⟨k, hk, hle⟩, fun x f hx => (by cases hx), hkeyed, hrecords⟩

theorem max_iff {t : FSMeta H} {m : Nat} :
    t.max = some m ↔ (∃ f, t.d.get? m = some f) ∧ ∀ k f, t.d.get? k = some f → k ≤ m := by
  unfold FSMeta.max
  rw [List.max?_eq_some_iff, t.d.mem_keys_iff]
  exact and_congr_right fun _ =>
    ⟨fun h k f hk => h k (t.d.mem_keys_iff.mpr ⟨f, hk⟩), fun h k hk =>
      let ⟨f, hf⟩ := t.d.mem_keys_iff.mp hk
      h k f hf⟩

/-- Setting the next number again and again reaches every number above. -/
theorem reaches_number (U : List Nat) {m : Nat} (j : Nat) {t : FSMeta H} (hm : t.max = some m) :
    ∃ cs t', (metaCalls.meeting fun t c => c.covers U t = true).Run t cs t' ∧
      t'.max = some (m + j) ∧ t'.ht = t.ht := by
  induction j generalizing m t with
  | zero => exact ⟨[], t, .nil t, hm, rfl⟩
  | succ j ih =>
    obtain ⟨_, hle⟩ := max_iff.mp hm
    have hm' : (t.setItem (m + 1) { inode := m + 1 }).max = some (m + 1) := by
      refine max_iff.mpr ⟨⟨_, Dict.get?_set_self _ _ _⟩, fun k f hk => ?_⟩
      rw [FSMeta.setItem_d, Dict.get?_set] at hk
      split at hk
      · omega
      · have := hle k f hk
        omega
    obtain ⟨cs, t', hrun, hmax, hht⟩ := ih hm'
    refine ⟨.setItem (m + 1) { inode := m + 1 } :: cs, t', .cons ⟨rfl, rfl⟩ hrun, ?_, hht⟩
    rw [hmax, show m + 1 + j = m + (j + 1) by omega]

/-- A number of the list that lies above the table is reached. -/
theorem Covered.of_fresh {U : List Nat} {t : FSMeta H} {k₀ : Nat} {f₀ : FileInode H}
    (hne : t.d.get? k₀ = some f₀)
    (hfresh : ∀ (cs : List (MetaCall H)) (t' : FSMeta H),
      (metaCalls.meeting fun t c => c.covers U t = true).Run t cs t' → t'.ht = t.ht →
        ∀ m, t'.max = some m → m + 1 ∉ U) :
    coveredWithout U t none = true := by
  obtain ⟨m, hm, _⟩ := t.max_spec hne
  refine coveredWithout_iff.mpr ⟨m, (max_iff.mp hm).1, nofun, fun u hu => ?_⟩
  by_contra hlt
  obtain ⟨cs, t', hrun, hmax, hht⟩ := reaches_number U (u - 1 - m) hm
  refine hfresh cs t' hrun hht _ hmax ?_
  rwa [show m + (u - 1 - m) + 1 = u by omega]

/-- A started table has an inode. -/
theorem started_nonempty (t : FSMeta H) (uid gid : Nat) (now : Time) :
    ∃ k f, (t.started uid gid now).d.get? k = some f := by
  unfold FSMeta.started
  split
  · exact ⟨ROOT_INODE, _, Dict.get?_set_self _ _ _⟩
  · rename_i h
    rw [Dict.size_eq_zero] at h
    obtain ⟨k, hk⟩ := not_forall.mp h
    exact ⟨k, Option.isSome_iff_exists.mp (Option.isSome_iff_ne_none.mpr hk)⟩

theorem started_ht (t : FSMeta H) (uid gid : Nat) (now : Time) :
    (t.started uid gid now).ht = t.ht := by
  unfold FSMeta.started
  split <;> rfl

/-- Every record that was not loaded is still in the store. -/
theorem occupies_of_unread {loads : Bytes → Option (FileInode H)} {st : RawStore}
    {replication : Bool} {mirror : Dict Bytes (FileInode H)} {t : FSMeta H} {k : Nat}
    (hk : k ∈ st.unread loads) (hht : t.ht = (FSMeta.ofStore loads st replication mirror).ht) :
    st.occupies loads t k := by
  obtain ⟨r, hr, rfl⟩ := List.mem_map.mp hk
  replace hr := (List.dropWhile_sublist _).subset hr
  cases hload : loads r.2 with
  | none => exact .inr ⟨r, hr, hload, rfl⟩
  | some f =>
    refine .inl ?_
    rw [hht, decoded_of_key (st.key hr), ofStore_ht.mpr ⟨r, hr, rfl, hload⟩]
    rfl

/-- **What survives the start of a damaged store.**  No record is lost at the start exactly if those that
can be decoded sort before the others, and the first one can, or none is that of the root.  No later
number is that of a record, in runs that keep an inode numbered at or above every record that was not
loaded, exactly if the start has one. -/
theorem damaged_store_kept (loads : Bytes → Option (FileInode H)) (st : RawStore)
    (replication : Bool) (mirror : Dict Bytes (FileInode H)) (uid gid : Nat) (now : Time)
    (g : Globals H) :
    let t := FSMeta.ofStore loads st replication mirror
    (((∀ r ∈ st.records, ∀ f, loads r.2 = some f →
          (t.started uid gid now).d.get? (fromBytes r.1) = some f.reloaded) ∧
        (t.d.size = 0 → ∀ r ∈ st.records, fromBytes r.1 ≠ ROOT_INODE)) ↔
      (∀ r ∈ st.records, ∀ r' ∈ st.records, decodes loads r = true → decodes loads r' = false →
          r.1 < r'.1) ∧
        ((∃ r, st.records.head? = some r ∧ decodes loads r = true) ∨
          ∀ r ∈ st.records, fromBytes r.1 ≠ ROOT_INODE)) ∧
    ((∀ (cs : List (MetaCall H)) (t' : FSMeta H),
        (metaCalls.meeting fun t c => c.covers (st.unread loads) t = true).Run
          (t.started uid gid now) cs t' →
        ∀ n, (genInodeNumber ⟨t', g⟩).1 = .ok n → ¬ st.occupies loads t' n) ↔
      coveredWithout (st.unread loads) (t.started uid gid now) none = true) := by
  intro t
  refine ⟨started_iff uid gid now, fun hfresh => ?_, fun habove cs t' hrun n hn => ?_⟩
  · obtain ⟨k, f, hk⟩ := started_nonempty t uid gid now
    refine Covered.of_fresh hk fun cs t' hrun hht m hm hU => ?_
    have hgen := genInodeNumber_run (s := ⟨t', g⟩) hm
    exact hfresh cs t' hrun (m + 1) (congrArg Prod.fst hgen)
      (occupies_of_unread hU (hht.trans (started_ht t _ _ _)))
  · have hcovered : Covered (st.unread loads) t' := by
      refine hrun.invariant ?_ (started_covered habove)
      rintro t c _ h ⟨rfl, hc⟩
      exact h.exec hc
    obtain ⟨hU, hnone⟩ := hcovered.next hn
    rintro (hsome | ⟨r, hr, hbad, rfl⟩)
    · rw [hnone] at hsome
      cases hsome
    · -- a record that cannot be decoded was not loaded
      refine hU (List.mem_map.mpr ⟨r, ?_, rfl⟩)
      rw [← List.takeWhile_append_dropWhile (p := decodes loads) (l := st.records)] at hr
      refine (List.mem_append.mp hr).resolve_left fun hmem => ?_
      have hd := List.mem_takeWhile_imp hmem
      unfold decodes at hd
      rw [hbad] at hd
      cases hd

/-! ## A damaged record before the root -/

/-- The first byte of a record tells whether it can be decoded, and the rest is the owner. -/
def sampleLoads (v : Bytes) : Option (FileInode Nat) :=
  match v with
  | 0 :: uid => some { inode := 1, uid := fromBytes uid }
  | _ => none

/-- The record of inode 256 sorts before that of the root, which belongs to user 7. -/
def damagedStore : RawStore where
  records := [(0 :: 1 :: List.replicate 62 0, [1]), (1 :: 0 :: List.replicate 62 0, [0, 7])]
  ordered := by decide +kernel
  sized := by decide +kernel

/-- **A new root over the old one**: the record of inode 256 is damaged, and nothing is loaded. -/
theorem damaged_store_lost :
    ¬ ∀ (loads : Bytes → Option (FileInode Nat)) (st : RawStore) (uid gid : Nat) (now : Time),
      (∃ r ∈ st.records, decodes loads r = false) →
        let t := FSMeta.ofStore loads st false Dict.empty
        (∀ r ∈ st.records, ∀ f, loads r.2 = some f →
          (t.started uid gid now).d.get? (fromBytes r.1) = some f.reloaded) ∧
        (t.d.size = 0 → ∀ r ∈ st.records, fromBytes r.1 ≠ ROOT_INODE) := by
  intro h
  have hlost := (started_iff 0 0 0).mp (h sampleLoads damagedStore 0 0 0 (by decide))
  rcases hlost.2 with ⟨r, hr, hd⟩ | hroot
  · cases hr
    revert hd
    decide
  · revert hroot
    decide

end VeratyFS
