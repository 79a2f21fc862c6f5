import VeratyFS.FsMeta
import VeratyFS.Lib.Runs

/-!
# The inode table as a durable map

Are the databases of `FSMeta` the dictionary after a commit?

* `fromBytes_toBytes`, `toBytes_inj` — the 64-byte keys.
* `FSMeta.decoded` — a database read as a map of inode numbers.
* `InodeOp`, `inodeOps` — sets, deletions of present keys, and commits, in any order.
* `Backed` — the databases hold the inodes that are not pending, up to the two fields that
  `init_from_disk` resets in an inode that was loaded and not set since.
* `inodes_durable` — what every run from a mount leaves in the databases.
* `mount_resets` — a record of which the loaded inode differs.
-/

set_option autoImplicit false

namespace VeratyFS

open Pylib

variable {H : Type}

/-! ## Keys -/

theorem fromBytes_toBytes {n k : Nat} {bs : Bytes} (h : toBytes n k = some bs) :
    fromBytes bs = k := by
  induction n generalizing k bs with
  | zero =>
    unfold toBytes at h
    split at h
    · rename_i hk
      cases h
      exact hk.symm
    · cases h
  | succ n ih =>
    unfold toBytes at h
    obtain ⟨bs', h', rfl⟩ := Option.map_eq_some_iff.mp h
    have hlow : (UInt8.ofNat (k % 256)).toNat = k % 256 := by simp
    rw [fromBytes, ih h', hlow]
    omega

theorem toBytes_inj {n k k' : Nat} {bs : Bytes} (h : toBytes n k = some bs)
    (h' : toBytes n k' = some bs) : k = k' :=
  (fromBytes_toBytes h).symm.trans (fromBytes_toBytes h')

theorem toBytes_isSome {n k : Nat} : (toBytes n k).isSome ↔ k < 256 ^ n := by
  induction n generalizing k with
  | zero =>
    unfold toBytes
    by_cases h : k = 0
    · simp [h]
    · simp [h]
  | succ n ih =>
    unfold toBytes
    rw [Option.isSome_map, ih, Nat.pow_succ]
    omega

/-! ## Databases -/

/-- A database read as a map of inode numbers. -/
def decoded (db : Dict Bytes (FileInode H)) (k : Nat) : Option (FileInode H) :=
  (toBytes 64 k).bind db.get?

/-- Every record is that of an inode number. -/
def Keyed (db : Dict Bytes (FileInode H)) : Prop :=
  ∀ n f, db.get? n = some f → ∃ k, toBytes 64 k = some n

theorem decoded_of_key {db : Dict Bytes (FileInode H)} {k : Nat} {n : Bytes}
    (h : toBytes 64 k = some n) : decoded db k = db.get? n := by
  rw [decoded, h]
  rfl

/-- Two numbers with one key are one number. -/
theorem key_eq_iff {k x : Nat} {n m : Bytes} (hk : toBytes 64 k = some n)
    (hx : toBytes 64 x = some m) : n = m ↔ k = x := by
  constructor
  · rintro rfl
    exact toBytes_inj hk hx
  · rintro rfl
    exact Option.some.inj (hk.symm.trans hx)

theorem decoded_set {db : Dict Bytes (FileInode H)} {k : Nat} {n : Bytes}
    (h : toBytes 64 k = some n) (f : FileInode H) (x : Nat) :
    decoded (db.set n f) x = if k = x then some f else decoded db x := by
  unfold decoded
  cases hx : toBytes 64 x with
  | none =>
    have hne : k ≠ x := fun e => by rw [e, hx] at h; cases h
    rw [if_neg hne]
    rfl
  | some m => simp [Dict.get?_set, key_eq_iff h hx]

theorem decoded_erase {db : Dict Bytes (FileInode H)} {k : Nat} {n : Bytes}
    (h : toBytes 64 k = some n) (x : Nat) :
    decoded (db.erase n) x = if k = x then none else decoded db x := by
  unfold decoded
  cases hx : toBytes 64 x with
  | none =>
    rw [Option.bind_none, Option.bind_none, ite_self]
  | some m => simp [Dict.get?_erase, key_eq_iff h hx]

theorem Keyed.set {db : Dict Bytes (FileInode H)} (hdb : Keyed db) {k : Nat} {n : Bytes}
    (h : toBytes 64 k = some n) (f : FileInode H) : Keyed (db.set n f) :=
  db.forall_set hdb ⟨k, h⟩

theorem Keyed.erase {db : Dict Bytes (FileInode H)} (hdb : Keyed db) (n : Bytes) :
    Keyed (db.erase n) := db.forall_erase hdb n

/-- A batch whose keys fit is written entry by entry. -/
theorem batch_spec (l : List (Nat × FileInode H)) (hl : ∀ e ∈ l, (toBytes 64 e.1).isSome)
    (hnodup : (l.map Prod.fst).Nodup) {db : Dict Bytes (FileInode H)} (hdb : Keyed db) :
    ∃ l', (l.mapM fun e => (toBytes 64 e.1).map (·, e.2)) = some l' ∧
      Keyed (l'.foldl (fun d e => d.set e.1 e.2) db) ∧
      ∀ x, decoded (l'.foldl (fun d e => d.set e.1 e.2) db) x =
        (lookup x l).orElse fun _ => decoded db x := by
  induction l generalizing db with
  | nil => exact ⟨[], rfl, hdb, fun _ => rfl⟩
  | cons e l ih =>
    obtain ⟨k, f⟩ := e
    obtain ⟨n, hn⟩ := Option.isSome_iff_exists.mp (hl (k, f) List.mem_cons_self)
    rw [List.map_cons, List.nodup_cons] at hnodup
    obtain ⟨l', hl', hkeyed, hdecoded⟩ := ih (fun e he => hl e (List.mem_cons_of_mem _ he)) hnodup.2
      (hdb.set hn f)
    refine ⟨(n, f) :: l', ?_, hkeyed, fun x => ?_⟩
    · rw [List.mapM_cons, hn, hl']
      rfl
    · rw [List.foldl_cons, hdecoded, decoded_set hn]
      by_cases hx : k = x
      · subst hx
        simp [lookup, lookup_eq_none.mpr hnodup.1]
      · simp [lookup, hx]

/-- A reload has the inodes of the database, reset. -/
theorem initFromDisk_d_get? {t : FSMeta H} (h : Keyed t.ht) (k : Nat) :
    t.initFromDisk.d.get? k = (decoded t.ht k).map FileInode.reloaded := by
  have hfold : t.initFromDisk.d = (t.ht.entries.map fun e => (fromBytes e.1, e.2.reloaded)).foldl
      (fun d e => d.set e.1 e.2) Dict.empty := by
    rw [List.foldl_map]
    rfl
  have hkey : ∀ e ∈ t.ht.entries, toBytes 64 (fromBytes e.1) = some e.1 := by
    intro e he
    obtain ⟨k', hk'⟩ := h e.1 e.2 (t.ht.mem_entries_iff.mp he)
    rw [fromBytes_toBytes hk']
    exact hk'
  have hnodup : ((t.ht.entries.map fun e => (fromBytes e.1, e.2.reloaded)).map Prod.fst).Nodup := by
    rw [List.map_map]
    refine List.Nodup.map_on ?_ t.ht.nodup.of_map
    intro e he e' he' heq
    have hfst : e.1 = e'.1 := by
      have h₁ := hkey e he
      have h₂ := hkey e' he'
      replace heq : fromBytes e.1 = fromBytes e'.1 := heq
      rw [heq] at h₁
      exact Option.some.inj (h₁.symm.trans h₂)
    have hsome := t.ht.mem_entries_iff.mp he
    have hsome' := t.ht.mem_entries_iff.mp he'
    rw [hfst, hsome'] at hsome
    exact Prod.ext hfst (Option.some.inj hsome).symm
  have hiff : ∀ f', lookup k (t.ht.entries.map fun e => (fromBytes e.1, e.2.reloaded)) = some f' ↔
      (decoded t.ht k).map FileInode.reloaded = some f' := by
    intro f'
    rw [lookup_eq_some hnodup, List.mem_map, Option.map_eq_some_iff]
    constructor
    · rintro ⟨⟨n, f⟩, he, heq⟩
      obtain ⟨rfl, rfl⟩ := Prod.mk.inj heq
      refine ⟨f, ?_, rfl⟩
      rw [decoded_of_key (hkey _ he)]
      exact t.ht.mem_entries_iff.mp he
    · rintro ⟨f, hf, rfl⟩
      obtain ⟨n, hn, hget⟩ := Option.bind_eq_some_iff.mp hf
      exact ⟨(n, f), t.ht.mem_entries_iff.mpr hget, by rw [fromBytes_toBytes hn]⟩
  rw [hfold, Dict.get?_foldl_set _ hnodup]
  refine Option.ext fun f' => ?_
  rw [← hiff]
  cases lookup k (t.ht.entries.map fun e => (fromBytes e.1, e.2.reloaded)) <;> simp

/-! ## Calls -/

inductive InodeOp (H : Type) where
  | setItem (k : Nat) (f : FileInode H)
  | delItem (k : Nat)
  | commit

/-- The table after a call. -/
def InodeOp.exec : InodeOp H → FSMeta H → FSMeta H
  | .setItem k f, t => t.setItem k f
  | .delItem k, t => (t.delItem k).2
  | .commit, t => t.commit

/-- Keys are below 2^512, and deleted keys are present. -/
def InodeOp.allowed (t : FSMeta H) : InodeOp H → Bool
  | .setItem k _ => decide (k < 256 ^ 64)
  | .delItem k => t.d.contains k
  | .commit => true

def inodeOps : System (FSMeta H) (InodeOp H) := .ofFun InodeOp.exec

/-- The inode numbers that were set. -/
def setKeys (ops : List (InodeOp H)) : List Nat :=
  ops.filterMap fun
    | .setItem k _ => some k
    | _ => none

/-- The table of a new object: the database's inodes, reset, and nothing pending. -/
structure FSMeta.Mounted (t : FSMeta H) : Prop where
  pending : t.pending = Dict.empty
  keyed : Keyed t.ht
  d : ∀ k, t.d.get? k = (decoded t.ht k).map FileInode.reloaded
  mirror : t.replication = true → Keyed t.mirror ∧ ∀ k, decoded t.mirror k = decoded t.ht k

/-! ## What the databases hold -/

/-- The record of an inode: the inode, unless it was loaded and not set since; then the record it
    was loaded from. -/
def WrittenBack (S : List Nat) (loaded : Dict Bytes (FileInode H)) (k : Nat)
    (record f : Option (FileInode H)) : Prop :=
  record = f ∨ k ∉ S ∧ ∃ f₀, decoded loaded k = some f₀ ∧ record = some f₀ ∧ f = some f₀.reloaded

/-- One database: an inode that is not pending is written back. -/
structure BackedBy (S : List Nat) (loaded : Dict Bytes (FileInode H)) (t : FSMeta H)
    (db : Dict Bytes (FileInode H)) : Prop where
  keyed : Keyed db
  records : ∀ k, (∃ f, t.pending.get? k = some f ∧ t.d.get? k = some f) ∨
    t.pending.get? k = none ∧ WrittenBack S loaded k (decoded db k) (t.d.get? k)

/-- The databases hold what is not pending. -/
structure Backed (S : List Nat) (loaded : Dict Bytes (FileInode H)) (t : FSMeta H) : Prop where
  fits : ∀ k f, t.pending.get? k = some f → (toBytes 64 k).isSome
  ht : BackedBy S loaded t t.ht
  mirror : t.replication = true → BackedBy S loaded t t.mirror

variable {S : List Nat} {loaded db : Dict Bytes (FileInode H)} {t t' : FSMeta H}

theorem BackedBy.setItem (h : BackedBy S loaded t db) (k : Nat) (f : FileInode H) :
    BackedBy (k :: S) loaded (t.setItem k f) db := by
  refine ⟨h.keyed, fun x => ?_⟩
  show (∃ f', (t.pending.set k f).get? x = some f' ∧ (t.d.set k f).get? x = some f') ∨
    (t.pending.set k f).get? x = none ∧ WrittenBack _ _ _ _ ((t.d.set k f).get? x)
  rw [Dict.get?_set, Dict.get?_set]
  by_cases e : k = x
  · rw [if_pos e, if_pos e]
    exact .inl ⟨f, rfl, rfl⟩
  · rw [if_neg e, if_neg e]
    refine (h.records x).imp_right (And.imp_right (Or.imp_right (And.imp_left fun hx hmem => ?_)))
    rcases List.mem_cons.mp hmem with rfl | hmem
    · exact e rfl
    · exact hx hmem

/-- A deletion of a present key that fits. -/
theorem BackedBy.delItem (h : BackedBy S loaded t db) {k : Nat} {n : Bytes}
    (hn : toBytes 64 k = some n) (hd : ∀ x, t'.d.get? x = if k = x then none else t.d.get? x)
    (hp : ∀ x, t'.pending.get? x = if k = x then none else t.pending.get? x) :
    BackedBy S loaded t' (db.erase n) := by
  refine ⟨h.keyed.erase n, fun x => ?_⟩
  rw [hd, hp, decoded_erase hn]
  by_cases e : k = x
  · rw [if_pos e, if_pos e, if_pos e]
    exact .inr ⟨rfl, .inl rfl⟩
  · rw [if_neg e, if_neg e, if_neg e]
    exact h.records x

/-- The entries written, nothing is pending. -/
theorem BackedBy.commit {db' : Dict Bytes (FileInode H)} (h : BackedBy S loaded t db)
    (hkeyed : Keyed db')
    (hdb : ∀ x, decoded db' x = (t.pending.get? x).orElse fun _ => decoded db x)
    (hd : t'.d = t.d) (hp : t'.pending = Dict.empty) : BackedBy S loaded t' db' := by
  refine ⟨hkeyed, fun x => .inr ⟨by rw [hp]; rfl, ?_⟩⟩
  rw [hdb, hd]
  rcases h.records x with ⟨f, hpx, hdx⟩ | ⟨hpx, hw⟩
  · rw [hpx, hdx]
    exact .inl rfl
  · rw [hpx]
    exact hw

theorem batch_pending (hfits : ∀ k f, t.pending.get? k = some f → (toBytes 64 k).isSome)
    {db : Dict Bytes (FileInode H)} (hdb : Keyed db) :
    ∃ l, FSMeta.batch t.pending = some l ∧ Keyed (l.foldl (fun d e => d.set e.1 e.2) db) ∧
      ∀ x, decoded (l.foldl (fun d e => d.set e.1 e.2) db) x =
        (t.pending.get? x).orElse fun _ => decoded db x :=
  batch_spec t.pending.entries (fun e he => hfits e.1 e.2 (t.pending.mem_entries_iff.mp he))
    t.pending.nodup hdb

theorem Backed.commit (h : Backed S loaded t) : Backed S loaded t.commit := by
  obtain ⟨l, hl, hkeyed, hdecoded⟩ := batch_pending h.fits h.ht.keyed
  have hcommit : t.commit = { t with
      pending := Dict.empty
      ht := l.foldl (fun d e => d.set e.1 e.2) t.ht
      mirror := if t.replication then l.foldl (fun d e => d.set e.1 e.2) t.mirror else t.mirror } := by
    unfold FSMeta.commit FSMeta.batchSaveToDisk
    rw [hl]
  rw [hcommit]
  refine ⟨fun k f hk => (by cases hk), h.ht.commit hkeyed hdecoded rfl rfl, fun hr => ?_⟩
  have hm := h.mirror hr
  obtain ⟨l', hl', hkeyed', hdecoded'⟩ := batch_pending h.fits hm.keyed
  rw [hl] at hl'
  cases hl'
  show BackedBy S loaded _ (if t.replication then _ else _)
  rw [if_pos hr]
  exact hm.commit hkeyed' hdecoded' rfl rfl

theorem Backed.setItem (h : Backed S loaded t) {k : Nat} (hk : (toBytes 64 k).isSome)
    (f : FileInode H) : Backed (k :: S) loaded (t.setItem k f) := by
  exact ⟨t.pending.forall_set h.fits hk, h.ht.setItem k f, fun hr => (h.mirror hr).setItem k f⟩

/-- The table after the deletion of a present key that fits. -/
theorem delItem_eq {k : Nat} {n : Bytes} (hn : toBytes 64 k = some n)
    (hk : t.d.contains k = true) :
    (t.delItem k).2 = { t with
      d := t.d.erase k
      pending := t.pending.erase k
      ht := t.ht.erase n
      mirror := if t.replication then t.mirror.erase n else t.mirror } := by
  unfold FSMeta.delItem FSMeta.removeFromDisk
  rw [hn]
  dsimp only
  rw [if_pos hk]

/-- The table after a deletion, of a present key or not. -/
theorem FSMeta.delItem_snd (t : FSMeta H) {k : Nat} {n : Bytes} (hn : toBytes 64 k = some n) :
    ∃ d' : Dict Nat (FileInode H), (∀ x, d'.get? x = if k = x then none else t.d.get? x) ∧
      (t.delItem k).2 = { t with
        d := d'
        pending := t.pending.erase k
        ht := t.ht.erase n
        mirror := if t.replication then t.mirror.erase n else t.mirror } := by
  cases hk : t.d.contains k with
  | true => exact ⟨t.d.erase k, t.d.get?_erase k, delItem_eq hn hk⟩
  | false =>
    refine ⟨t.d, fun x => ?_, ?_⟩
    · split
      · rename_i e
        exact e ▸ (Dict.contains_eq_false _).mp hk
      · rfl
    · unfold FSMeta.delItem FSMeta.removeFromDisk
      rw [hn]
      simp [hk]

theorem Backed.delItem (h : Backed S loaded t) {k : Nat} (hfit : (toBytes 64 k).isSome)
    (hk : t.d.contains k = true) : Backed S loaded (t.delItem k).2 := by
  obtain ⟨n, hn⟩ := Option.isSome_iff_exists.mp hfit
  rw [delItem_eq hn hk]
  refine ⟨t.pending.forall_erase h.fits k, h.ht.delItem hn (fun x => t.d.get?_erase k x) fun x =>
    t.pending.get?_erase k x, fun hr => ?_⟩
  show BackedBy S loaded _ (if t.replication then _ else _)
  rw [if_pos hr]
  exact (h.mirror hr).delItem hn (fun x => t.d.get?_erase k x) fun x => t.pending.get?_erase k x

/-- Every present key fits. -/
theorem Backed.fits_of_mem (h : Backed S loaded t) {k : Nat} (hk : t.d.contains k = true) :
    (toBytes 64 k).isSome := by
  obtain ⟨f, hf⟩ := t.d.contains_iff.mp hk
  rcases h.ht.records k with ⟨f', hp, _⟩ | ⟨_, hw | ⟨_, f₀, hl, _, _⟩⟩
  · exact h.fits k f' hp
  · rw [hf] at hw
    obtain ⟨n, hn, _⟩ := Option.bind_eq_some_iff.mp hw
    rw [hn]
    rfl
  · obtain ⟨n, hn, _⟩ := Option.bind_eq_some_iff.mp hl
    rw [hn]
    rfl

theorem FSMeta.Mounted.backed (h : t.Mounted) : Backed [] t.ht t := by
  have hp : ∀ k, t.pending.get? k = none := by
    rw [h.pending]
    intro k
    rfl
  have hrecord : ∀ k, WrittenBack [] t.ht k (decoded t.ht k) (t.d.get? k) := by
    intro k
    rw [h.d]
    cases hk : decoded t.ht k with
    | none => exact .inl rfl
    | some f => exact .inr ⟨List.not_mem_nil, f, hk, rfl, rfl⟩
  refine ⟨fun k f hk => ?_, ⟨h.keyed, fun k => .inr ⟨hp k, hrecord k⟩⟩, fun hr => ?_⟩
  · rw [hp] at hk
    cases hk
  · obtain ⟨hkeyed, hmirror⟩ := h.mirror hr
    refine ⟨hkeyed, fun k => .inr ⟨hp k, ?_⟩⟩
    rw [hmirror]
    exact hrecord k

theorem Backed.run {t t' : FSMeta H} {ops : List (InodeOp H)} (h : Backed S loaded t)
    (hrun : (inodeOps.meeting fun t op => op.allowed t = true).Run t ops t') :
    ∃ S', Backed S' loaded t' ∧ ∀ k, k ∈ S' ↔ k ∈ S ∨ k ∈ setKeys ops := by
  induction hrun generalizing S with
  | nil t => exact ⟨S, h, fun k => by simp [setKeys]⟩
  | @cons t t₁ t' op ops hstep _ ih =>
    obtain ⟨rfl, hop⟩ := hstep
    cases op with
    | setItem k f =>
      have hk : (toBytes 64 k).isSome := toBytes_isSome.mpr (of_decide_eq_true hop)
      obtain ⟨S', hS', hmem⟩ := ih (h.setItem hk f)
      refine ⟨S', hS', fun x => ?_⟩
      rw [hmem]
      simp [setKeys, or_assoc, or_left_comm]
    | delItem k =>
      obtain ⟨S', hS', hmem⟩ := ih (h.delItem (h.fits_of_mem hop) hop)
      exact ⟨S', hS', fun x => (hmem x).trans (by simp [setKeys])⟩
    | commit =>
      obtain ⟨S', hS', hmem⟩ := ih h.commit
      exact ⟨S', hS', fun x => (hmem x).trans (by simp [setKeys])⟩

/-- **After a commit the databases are the dictionary**, except that an inode which was loaded and not
set since has the record it was loaded from; and a reload is the dictionary, reset. -/
theorem inodes_durable {t t' : FSMeta H} {ops : List (InodeOp H)} (hmount : t.Mounted)
    (hrun : (inodeOps.meeting fun t op => op.allowed t = true).Run t ops t') :
    (∀ k, WrittenBack (setKeys ops) t.ht k (decoded t'.commit.ht k) (t'.d.get? k)) ∧
    (t'.replication = true →
      ∀ k, WrittenBack (setKeys ops) t.ht k (decoded t'.commit.mirror k) (t'.d.get? k)) ∧
    (Keyed t'.commit.ht ∧ (t'.replication = true → Keyed t'.commit.mirror)) ∧
    ∀ k, t'.commit.initFromDisk.d.get? k = (t'.d.get? k).map FileInode.reloaded := by
  obtain ⟨S, hS, hmem⟩ := hmount.backed.run hrun
  have hc := hS.commit
  have hwritten : ∀ db, BackedBy S t.ht t'.commit db →
      ∀ k, WrittenBack (setKeys ops) t.ht k (decoded db k) (t'.d.get? k) := by
    intro db hdb k
    have hnot : k ∉ S → k ∉ setKeys ops := fun hk h => hk ((hmem k).mpr (.inr h))
    rcases hdb.records k with ⟨f, hp, _⟩ | ⟨_, hw⟩
    · rw [FSMeta.commit_pending] at hp
      cases hp
    · rw [FSMeta.commit_d] at hw
      exact hw.imp_right (And.imp_left hnot)
  have hrepl : t'.commit.replication = t'.replication := t'.commit_replication
  refine ⟨hwritten _ hc.ht, fun hr => hwritten _ (hc.mirror (hrepl.trans hr)),
    ⟨hc.ht.keyed, fun hr => (hc.mirror (hrepl.trans hr)).keyed⟩, fun k => ?_⟩
  rw [initFromDisk_d_get? hc.ht.keyed]
  rcases hwritten _ hc.ht k with hw | ⟨_, f₀, _, hr, hd⟩
  · rw [hw]
  · rw [hr, hd]
    rfl

/-- What the constructor makes of two equal databases. -/
theorem FSMeta.mounted_initFromDisk {t : FSMeta H} (hkeyed : Keyed t.ht)
    (hmirror : t.replication = true → t.mirror = t.ht) : t.initFromDisk.Mounted :=
  ⟨rfl, hkeyed, initFromDisk_d_get? hkeyed, fun hr => by
    have he : t.initFromDisk.mirror = t.ht := hmirror hr
    rw [he]
    exact ⟨hkeyed, fun _ => rfl⟩⟩

theorem keyed_empty : Keyed (Dict.empty : Dict Bytes (FileInode H)) := fun _ _ h => by cases h

/-- An inode set, committed, deleted and set again. -/
theorem inodes_durable_sample :
    let ops : List (InodeOp Nat) := [.setItem 2 { inode := 2 }, .commit, .delItem 2,
      .setItem 2 { inode := 2, size := 7 }]
    let t := System.after InodeOp.exec (FSMeta.new true).initFromDisk ops
    (∀ k, WrittenBack (setKeys ops) Dict.empty k (decoded t.commit.ht k) (t.d.get? k)) ∧
    (t.replication = true →
      ∀ k, WrittenBack (setKeys ops) Dict.empty k (decoded t.commit.mirror k) (t.d.get? k)) ∧
    (Keyed t.commit.ht ∧ (t.replication = true → Keyed t.commit.mirror)) ∧
    ∀ k, t.commit.initFromDisk.d.get? k = (t.d.get? k).map FileInode.reloaded :=
  inodes_durable (FSMeta.mounted_initFromDisk keyed_empty fun _ => rfl)
    (System.run_meeting_after _ (fun t op => InodeOp.allowed t op) _ _ (by decide))

/-- A database with an inode that was looked up twice. -/
def lookedUp : FSMeta Nat :=
  { FSMeta.new false with
    ht := Dict.empty.set ((toBytes 64 2).getD []) { inode := 2, lookupCount := 2 } }

/-- The commit after a mount leaves the record as it was; the inode in the dictionary was reset. -/
theorem mount_resets : ¬ ∀ (t t' : FSMeta Nat) (ops : List (InodeOp Nat)), t.Mounted →
    (inodeOps.meeting fun t op => op.allowed t = true).Run t ops t' →
      ∀ k, decoded t'.commit.ht k = t'.d.get? k := by
  intro h
  have hkeyed : Keyed lookedUp.ht :=
    keyed_empty.set (n := (toBytes 64 2).getD []) (k := 2) (by decide) _
  have hmount : lookedUp.initFromDisk.Mounted :=
    FSMeta.mounted_initFromDisk hkeyed fun hr => by cases hr
  have hsame := congrArg (Option.map FileInode.lookupCount) (h _ _ [] hmount (.nil _) 2)
  revert hsame
  decide

end VeratyFS
