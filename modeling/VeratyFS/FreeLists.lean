import Mathlib.Algebra.BigOperators.Group.List.Basic
import Mathlib.Tactic.Ring
import VeratyFS.ExtentSafety

/-!
# What the free lists hold

Three functions change the free lists of the mmap backend, and each its own way: `update_index`
inserts, the collector appends and counts, `find_location` pops and counts when a list gets empty.

* `FreedExtent`, `bucket` — an extent of a free list, and the offsets of one size.
* `recalculated` — the counters as `init_persistance` computes them.
* `FreeSpace` — the program with the extents that were freed and not reused; `FreeCall` — the calls,
  and `others` for all the rest of the program.
* `Balanced` — every such extent is in its list once, and the counters are the recalculated ones.
* `garbageCollector_rounds` — a pass of the collector as such a run.
* `free_lists_accounted` — runs in which no known hash is dropped, nothing is freed twice, and no
  list of several extents is reused.
* `dropped_extent_uncounted` — one drop, and the counters are wrong.
-/

set_option autoImplicit false

namespace VeratyFS

open Pylib
open scoped List

variable {H : Type}

/-! ## Buckets -/

/-- An extent of a free list: the index of its tree, its size and its offset. -/
@[ext] structure FreedExtent where
  chunk : Nat
  size : Nat
  offset : Int
  deriving DecidableEq, Repr

/-- The offsets of one size in the tree of a chunk. -/
def bucket (fb : List IOBTree) (chunk size : Nat) : List Int :=
  ((fb[chunk]?).map fun t => t.offsets size).getD []

/-- `fragmentation` as `init_persistance` recomputes it. -/
def recalculated (freeBlocks : List IOBTree) : Fragmentation :=
  freeBlocks.foldl (fun fr fb => fb.entries.foldl (fun fr b =>
    ⟨fr.freeSize + b.2.length * b.1, fr.freeCount + b.2.length⟩) fr) ⟨0, 0⟩

/-- The extents of the free lists. -/
def listedExtents (fb : List IOBTree) : List FreedExtent :=
  fb.zipIdx.flatMap fun t => t.1.entries.flatMap fun b => b.2.map (⟨t.2, b.1, ·⟩)

section

variable {fb : List IOBTree} {t t' : IOBTree} {j k : Nat}

theorem mem_listedExtents {e : FreedExtent} :
    e ∈ listedExtents fb ↔ e.offset ∈ bucket fb e.chunk e.size := by
  unfold listedExtents bucket
  constructor
  · intro he
    obtain ⟨⟨t, j⟩, ht, he⟩ := List.mem_flatMap.mp he
    obtain ⟨⟨s, offsets⟩, hb, he⟩ := List.mem_flatMap.mp he
    obtain ⟨o, ho, rfl⟩ := List.mem_map.mp he
    have hj : fb[j]? = some t := List.mem_zipIdx_iff_getElem?.mp ht
    have hs : t.get? s = some offsets := t.mem_entries_iff.mp hb
    simp [hj, IOBTree.offsets, hs, ho]
  · intro he
    cases hj : fb[e.chunk]? with
    | none => simp [hj] at he
    | some t =>
      cases hs : t.get? e.size with
      | none => simp [hj, IOBTree.offsets, hs] at he
      | some offsets =>
        simp only [hj, IOBTree.offsets, hs, Option.map_some, Option.getD_some] at he
        refine List.mem_flatMap.mpr ⟨(t, e.chunk), List.mem_zipIdx_iff_getElem?.mpr hj, ?_⟩
        refine List.mem_flatMap.mpr ⟨(e.size, offsets), t.mem_entries_iff.mpr hs, ?_⟩
        exact List.mem_map.mpr ⟨e.offset, he, rfl⟩

theorem bucket_set (hj : fb[j]? = some t) (i s : Nat) :
    bucket (fb.set j t') i s = if j = i then t'.offsets s else bucket fb i s := by
  have hlen := (List.getElem?_eq_some_iff.mp hj).1
  unfold bucket
  by_cases e : j = i
  · subst e
    simp [hlen]
  · simp [e]

/-! ## Counters -/

/-- A sum over the buckets of a tree. -/
def bucketSum (w : Nat → List Int → Int) (t : IOBTree) : Int := (t.entries.map fun b => w b.1 b.2).sum

/-- One bucket, and the others. -/
theorem bucketSum_split {w : Nat → List Int → Int} (hw : ∀ s, w s [] = 0) (t : IOBTree) (k : Nat) :
    bucketSum w t = w k (t.offsets k) + bucketSum w (t.erase k) := by
  unfold bucketSum IOBTree.offsets
  cases hk : t.get? k with
  | some offsets =>
    rw [((t.entries_erase hk).map _).sum_eq]
    simp
  | none =>
    rw [((t.entries_erase_missing hk).map _).sum_eq]
    simp [hw]

/-- One bucket changes. -/
theorem bucketSum_change {w : Nat → List Int → Int} (hw : ∀ s, w s [] = 0)
    (hother : ∀ x, x ≠ k → t'.get? x = t.get? x) :
    bucketSum w t' = bucketSum w t - w k (t.offsets k) + w k (t'.offsets k) := by
  have hrest : (t'.erase k).entries.Perm (t.erase k).entries := Dict.entries_erase_congr hother
  have hsum : bucketSum w (t'.erase k) = bucketSum w (t.erase k) := (hrest.map _).sum_eq
  have h := bucketSum_split hw t k
  have h' := bucketSum_split hw t' k
  omega

/-- One tree changes. -/
theorem sum_set {f : IOBTree → Int} (hj : fb[j]? = some t) :
    ((fb.set j t').map f).sum = (fb.map f).sum - f t + f t' := by
  induction fb generalizing j with
  | nil => cases hj
  | cons t₀ fb ih =>
    cases j with
    | zero =>
      cases hj
      simp only [List.set_cons_zero, List.map_cons, List.sum_cons]
      omega
    | succ j =>
      have := ih (j := j) hj
      simp only [List.set_cons_succ, List.map_cons, List.sum_cons]
      omega

def bytesOf (s : Nat) (offsets : List Int) : Int := offsets.length * s

def countOf (_ : Nat) (offsets : List Int) : Int := offsets.length

theorem recalculated_eq (fb : List IOBTree) :
    recalculated fb = ⟨(fb.map (bucketSum bytesOf)).sum, (fb.map (bucketSum countOf)).sum⟩ := by
  have htree : ∀ (l : List (Nat × List Int)) (fr : Fragmentation),
      l.foldl (fun fr b => ⟨fr.freeSize + b.2.length * b.1, fr.freeCount + b.2.length⟩) fr =
        (⟨fr.freeSize + (l.map fun b => bytesOf b.1 b.2).sum,
          fr.freeCount + (l.map fun b => countOf b.1 b.2).sum⟩ : Fragmentation) := by
    intro l
    induction l with
    | nil => simp
    | cons b l ih =>
      intro fr
      rw [List.foldl_cons, ih]
      simp [bytesOf, countOf, add_assoc]
  have htrees : ∀ (fb : List IOBTree) (fr : Fragmentation),
      fb.foldl (fun fr fb => fb.entries.foldl (fun fr b =>
          ⟨fr.freeSize + b.2.length * b.1, fr.freeCount + b.2.length⟩) fr) fr =
        (⟨fr.freeSize + (fb.map (bucketSum bytesOf)).sum,
          fr.freeCount + (fb.map (bucketSum countOf)).sum⟩ : Fragmentation) := by
    intro fb
    induction fb with
    | nil => simp
    | cons t fb ih =>
      intro fr
      rw [List.foldl_cons, htree, ih]
      simp [bucketSum, add_assoc]
  have := htrees fb ⟨0, 0⟩
  simpa [recalculated] using this

/-- One bucket of one tree changes. -/
theorem recalculated_set (hj : fb[j]? = some t) (hother : ∀ x, x ≠ k → t'.get? x = t.get? x) :
    recalculated (fb.set j t') =
      ⟨(recalculated fb).freeSize + ((t'.offsets k).length - (t.offsets k).length : Int) * k,
        (recalculated fb).freeCount + ((t'.offsets k).length - (t.offsets k).length : Int)⟩ := by
  have hbytes := bucketSum_change (w := bytesOf) (by simp [bytesOf]) hother
  have hcount := bucketSum_change (w := countOf) (by simp [countOf]) hother
  rw [recalculated_eq, recalculated_eq, sum_set hj, sum_set hj, hbytes, hcount]
  simp only [bytesOf, countOf, Fragmentation.mk.injEq]
  constructor
  · ring
  · ring

/-- The lists with one extent more. -/
inductive Adds (e : FreedExtent) (fb : List IOBTree) : List IOBTree → Prop
  | mk {t t' : IOBTree} (tree : fb[e.chunk]? = some t)
      (other : ∀ x, x ≠ e.size → t'.get? x = t.get? x)
      (offsets : (t'.offsets e.size).Perm (e.offset :: t.offsets e.size)) :
      Adds e fb (fb.set e.chunk t')

theorem Adds.count {e : FreedExtent} {fb' : List IOBTree} (h : Adds e fb fb') (e' : FreedExtent) :
    (bucket fb' e'.chunk e'.size).count e'.offset =
      (bucket fb e'.chunk e'.size).count e'.offset + if e' = e then 1 else 0 := by
  obtain ⟨tree, other, offsets⟩ := h
  rename_i t t'
  rw [bucket_set tree]
  by_cases hchunk : e.chunk = e'.chunk
  · have hold : bucket fb e'.chunk e'.size = t.offsets e'.size := by
      simp [bucket, ← hchunk, tree]
    rw [if_pos hchunk, hold]
    by_cases hsize : e'.size = e.size
    · rw [hsize, offsets.count_eq, List.count_cons]
      have hiff : (e.offset == e'.offset) = true ↔ e' = e := by
        rw [beq_iff_eq]
        exact ⟨fun ho => FreedExtent.ext hchunk.symm hsize ho.symm, fun he => by rw [he]⟩
      simp only [hiff]
    · have hne : e' ≠ e := fun he => hsize (he ▸ rfl)
      have hsame : t'.offsets e'.size = t.offsets e'.size := by
        unfold IOBTree.offsets
        rw [other _ hsize]
      rw [hsame, if_neg hne, Nat.add_zero]
  · have hne : e' ≠ e := fun he => hchunk (he ▸ rfl)
    rw [if_neg hchunk, if_neg hne, Nat.add_zero]

theorem Adds.recalculated {e : FreedExtent} {fb' : List IOBTree} (h : Adds e fb fb') :
    VeratyFS.recalculated fb' =
      ⟨(VeratyFS.recalculated fb).freeSize + e.size, (VeratyFS.recalculated fb).freeCount + 1⟩ := by
  obtain ⟨tree, other, offsets⟩ := h
  rw [recalculated_set tree other, offsets.length_eq, List.length_cons]
  simp

end

/-! ## Reuse -/

/-- The extent that the loop over the trees pops. -/
def firstFit (n : Nat) : Nat → List IOBTree → Option FreedExtent
  | _, [] => none
  | ds, fb :: rest =>
    match fb.minKey n with
    | some s => (fb.offsets s).head?.map (⟨ds, s, ·⟩)
    | none => firstFit n (ds + 1) rest

/-- The free extent that `find_location` takes: none as long as a store is open. -/
def reused (q : QueuedWrite H) (v : Volume) : Option FreedExtent :=
  if (openStore v.datastore).isSome || v.datastore.isEmpty then none
  else firstFit q.compressedData.length 0 v.freeBlocks

/-- What a run of `find_location` does to the free lists. -/
inductive Reuses (v : Volume) : Option FreedExtent → Except PyError (Option BlockAddress) → Volume → Prop
  | nothing {r : Except PyError (Option BlockAddress)} {v' : Volume}
      (lists : v'.freeBlocks = v.freeBlocks) (counters : v'.fragmentation = v.fragmentation) :
      Reuses v none r v'
  | popped {e : FreedExtent} {t : IOBTree} {rest : List Int}
      (tree : v.freeBlocks[e.chunk]? = some t) (offsets : t.get? e.size = some (e.offset :: rest)) :
      Reuses v (some e) (.ok (some ⟨e.chunk, e.offset⟩))
        { v with
          freeBlocks := v.freeBlocks.set e.chunk (t.popOffset e.size rest)
          fragmentation := if rest.isEmpty then
            ⟨v.fragmentation.freeSize - e.size, v.fragmentation.freeCount - 1⟩
            else v.fragmentation }

theorem reuseFrom_reuses {q : QueuedWrite H} {v : Volume} : ∀ (trees : List IOBTree) (i : Nat),
    (∀ j t, trees[j]? = some t → v.freeBlocks[i + j]? = some t) →
      Reuses v (firstFit q.compressedData.length i trees) (reuseFrom q i trees v).1
        (reuseFrom q i trees v).2
  | [], _, _ => .nothing rfl rfl
  | fb :: rest, i, h => by
    rw [reuseFrom, firstFit]
    cases hkey : fb.minKey q.compressedData.length with
    | none =>
      dsimp only
      split
      · -- the last tree: `ENOSPC`
        rename_i hlast
        rw [List.isEmpty_iff.mp hlast]
        exact .nothing rfl rfl
      · refine reuseFrom_reuses rest (i + 1) fun j t ht => ?_
        have hj := h (j + 1) t ht
        rwa [Nat.add_assoc, Nat.add_comm 1]
    | some s =>
      obtain ⟨_, offsets, hoffsets⟩ := IOBTree.minKey_spec hkey
      dsimp only
      unfold reuseExtent IOBTree.offsets
      rw [hoffsets]
      cases offsets with
      | nil => exact .nothing rfl rfl
      | cons block others => exact .popped (e := ⟨i, s, block⟩) (h 0 fb rfl) hoffsets

theorem findLocation_reuses (q : QueuedWrite H) (v : Volume) :
    Reuses v (reused q v) (findLocation q v).1 (findLocation q v).2 := by
  unfold findLocation reused
  rw [Py.run_bind_ok (Py.run_read v)]
  cases hfirst : openStore v.datastore with
  | some e => exact .nothing rfl rfl
  | none =>
    dsimp only
    cases hempty : v.datastore.isEmpty with
    | true => exact .nothing rfl rfl
    | false => exact reuseFrom_reuses v.freeBlocks 0 fun j t ht => by rwa [Nat.zero_add]

/-! ## Calls -/

/-- The program, and the extents that were freed and not reused since. -/
structure FreeSpace (H : Type) where
  partition : Partition H
  freed : List FreedExtent

/-- `collect` is one round of `garbage_collector`; `others` is what the rest of the program does, to
    everything but the free lists and their counters. -/
inductive FreeCall (H : Type) where
  | updateIndex (h : H) (now : Time)
  | collect (now : Time)
  | findLocation (q : QueuedWrite H)
  | others (p : Partition H)

/-- The place of a block in the free lists. -/
def freedExtent (fb : List IOBTree) (b : Block H) : Option FreedExtent :=
  (index? fb.length b.chunk).map (⟨·, b.size, b.offset⟩)

section Calls

variable [DecidableEq H]

/-- The block that the next round of the collector frees. -/
def nextFreed (cfg : Config) (now : Time) (g : Globals H) : Option (Block H) :=
  match g.removeUses with
  | [] => none
  | h :: _ => (g.hashTable.getItem? h).filter fun b => due now b ∧ cfg.smallBlockLimit < b.size

namespace FreeCall

/-- The extent that a call frees. -/
def frees (cfg : Config) (p : Partition H) : FreeCall H → Option FreedExtent
  | .updateIndex h _ => (p.globals.hashTable.d.get? h).bind (freedExtent p.globals.freeBlocks)
  | .collect now => (nextFreed cfg now p.globals).bind (freedExtent p.globals.freeBlocks)
  | _ => none

/-- The extent that a call reuses. -/
def reuses (p : Partition H) : FreeCall H → Option FreedExtent
  | .findLocation q => reused q p.volume
  | _ => none

/-- The program after a call, whether it returns or raises. -/
def run (cfg : Config) : FreeCall H → Partition H → Partition H
  | .updateIndex h now, p => { p with globals := (updateIndexRemove cfg now h p.globals).2 }
  | .collect now, p =>
    match p.globals.removeUses with
    | [] => p
    | h :: rest =>
      { p with globals := (collectHash cfg now h { p.globals with removeUses := rest }).2 }
  | .findLocation q, p => p.withVolume (VeratyFS.findLocation q p.volume).2
  | .others p', p =>
    { p' with globals := { p'.globals with
        freeBlocks := p.globals.freeBlocks
        fragmentation := p.globals.fragmentation } }

def exec (cfg : Config) (c : FreeCall H) (x : FreeSpace H) : FreeSpace H where
  partition := c.run cfg x.partition
  freed := (c.frees cfg x.partition).toList ∪
    x.freed.filter fun e => some e ≠ c.reuses x.partition

/-- The extent is in its free list. -/
def listed (fb : List IOBTree) (e : FreedExtent) : Bool := (bucket fb e.chunk e.size).contains e.offset

/-- `update_index` drops no known hash, unless its chunk has no list or its extent is there already;
    the collector frees nothing that is there already, and the list exists; `find_location` takes the
    last extent of a list. -/
def balanced (cfg : Config) (p : Partition H) : FreeCall H → Bool
  | .updateIndex h now => ((FreeCall.updateIndex h now).frees cfg p).all (listed p.globals.freeBlocks)
  | .collect now => (nextFreed cfg now p.globals).all fun b =>
      (freedExtent p.globals.freeBlocks b).any fun e => !listed p.globals.freeBlocks e
  | .findLocation q => (reused q p.volume).all fun e =>
      (bucket p.globals.freeBlocks e.chunk e.size).length = 1
  | .others _ => true

end FreeCall

def freeSpaces (cfg : Config) : System (FreeSpace H) (FreeCall H) := .ofFun (FreeCall.exec cfg)

end Calls

/-! ## Accounting -/

/-- Every extent that was freed and not reused is in its list once, and the counters are the
    recalculated ones. -/
structure FreeSpace.Accounted (x : FreeSpace H) : Prop where
  once : ∀ e ∈ x.freed, (bucket x.partition.globals.freeBlocks e.chunk e.size).count e.offset = 1
  counters : x.partition.globals.fragmentation = recalculated x.partition.globals.freeBlocks

/-- The invariant: no other extent is in a list. -/
structure FreeSpace.Balanced (x : FreeSpace H) : Prop where
  once : ∀ e : FreedExtent, (bucket x.partition.globals.freeBlocks e.chunk e.size).count e.offset =
    if e ∈ x.freed then 1 else 0
  counters : x.partition.globals.fragmentation = recalculated x.partition.globals.freeBlocks

/-- The program as `init_persistance` leaves it: the lists are those of the file, and the counters are
    recalculated. -/
def FreeSpace.mounted (p : Partition H) : FreeSpace H where
  partition := { p with globals := { p.globals with
    fragmentation := recalculated p.globals.freeBlocks } }
  freed := listedExtents p.globals.freeBlocks

namespace FreeSpace

variable {x x' : FreeSpace H}

theorem Balanced.accounted (h : x.Balanced) : x.Accounted :=
  ⟨fun e he => (h.once e).trans (if_pos he), h.counters⟩

theorem Balanced.mounted {p : Partition H}
    (hnodup : ∀ j s, (bucket p.globals.freeBlocks j s).Nodup) : (FreeSpace.mounted p).Balanced := by
  refine ⟨fun e => ?_, rfl⟩
  change (bucket p.globals.freeBlocks e.chunk e.size).count e.offset =
    if e ∈ listedExtents p.globals.freeBlocks then 1 else 0
  rw [(hnodup e.chunk e.size).count]
  simp only [mem_listedExtents]

/-- Lists, counters and extents stay. -/
theorem Balanced.keep (h : x.Balanced)
    (hlists : x'.partition.globals.freeBlocks = x.partition.globals.freeBlocks)
    (hcounters : x'.partition.globals.fragmentation = x.partition.globals.fragmentation)
    (hfreed : ∀ e, e ∈ x'.freed ↔ e ∈ x.freed) : x'.Balanced := by
  refine ⟨fun e => ?_, ?_⟩
  · rw [hlists, h.once]
    simp only [hfreed]
  · rw [hlists, hcounters, h.counters]

/-- An extent that is in no list is appended and counted. -/
theorem Balanced.give (h : x.Balanced) {e : FreedExtent}
    (hadds : Adds e x.partition.globals.freeBlocks x'.partition.globals.freeBlocks)
    (hnew : FreeCall.listed x.partition.globals.freeBlocks e = false)
    (hcounters : x'.partition.globals.fragmentation =
      ⟨x.partition.globals.fragmentation.freeSize + e.size,
        x.partition.globals.fragmentation.freeCount + 1⟩)
    (hfreed : ∀ e', e' ∈ x'.freed ↔ e' = e ∨ e' ∈ x.freed) : x'.Balanced := by
  refine ⟨fun e' => ?_, by rw [hcounters, hadds.recalculated, h.counters]⟩
  rw [hadds.count, h.once]
  by_cases he : e' = e
  · subst he
    have hnot : e' ∉ x.freed := by
      intro hmem
      have hcount := (h.once e').trans (if_pos hmem)
      have hpos := List.count_pos_iff.mp (hcount ▸ Nat.one_pos)
      simp [FreeCall.listed, hpos] at hnew
    simp [hfreed, hnot]
  · simp [hfreed, he]

/-- The last extent of a list is taken and counted. -/
theorem Balanced.take (h : x.Balanced) {e : FreedExtent}
    (hadds : Adds e x'.partition.globals.freeBlocks x.partition.globals.freeBlocks)
    (hcounters : x'.partition.globals.fragmentation =
      ⟨x.partition.globals.fragmentation.freeSize - e.size,
        x.partition.globals.fragmentation.freeCount - 1⟩)
    (hfreed : ∀ e', e' ∈ x'.freed ↔ e' ∈ x.freed ∧ e' ≠ e) : x'.Balanced := by
  refine ⟨fun e' => ?_, ?_⟩
  · have hcount := hadds.count e'
    rw [h.once e'] at hcount
    by_cases he : e' = e
    · subst he
      simp only [hfreed, ne_eq, not_true, and_false, if_false]
      rw [if_pos rfl] at hcount
      split at hcount <;> omega
    · simp only [hfreed, ne_eq, he, not_false_iff, and_true]
      rw [if_neg he] at hcount
      omega
  · rw [hcounters, h.counters, hadds.recalculated]
    simp

end FreeSpace

/-! ## One call -/

section

variable [DecidableEq H] {cfg : Config} {x : FreeSpace H}

theorem FreeCall.mem_freed {c : FreeCall H} {e : FreedExtent} :
    e ∈ (c.exec cfg x).freed ↔
      c.frees cfg x.partition = some e ∨ e ∈ x.freed ∧ some e ≠ c.reuses x.partition := by
  unfold FreeCall.exec
  rw [List.mem_union_iff, Option.mem_toList, List.mem_filter, decide_eq_true_iff]

omit [DecidableEq H] in
/-- A block that has a place in the free lists. -/
theorem freedExtent_some {fb : List IOBTree} {b : Block H} {e : FreedExtent}
    (he : freedExtent fb b = some e) :
    ∃ t, getAt? fb b.chunk = some t ∧ fb[e.chunk]? = some t ∧ e.size = b.size ∧
      e.offset = b.offset ∧ ∀ t', setAt fb b.chunk t' = fb.set e.chunk t' := by
  obtain ⟨j, hj, rfl⟩ := Option.map_eq_some_iff.mp he
  have hlt := index?_lt hj
  refine ⟨fb[j], ?_, List.getElem?_eq_getElem hlt, rfl, rfl, fun t' => ?_⟩
  · unfold getAt?
    rw [hj, Option.bind_some, List.getElem?_eq_getElem hlt]
  · unfold setAt
    rw [hj]

omit [DecidableEq H] in
theorem freedExtent_none {fb : List IOBTree} {b : Block H} (he : freedExtent fb b = none) :
    getAt? fb b.chunk = none := by
  unfold getAt?
  rw [Option.map_eq_none_iff.mp he]
  rfl

/-- **`update_index(add=False)`** of an extent that is in its list. -/
theorem FreeSpace.Balanced.updateIndex (hx : x.Balanced) {h : H} {now : Time}
    (hc : FreeCall.balanced cfg x.partition (.updateIndex h now) = true) :
    ((FreeCall.updateIndex h now).exec cfg x).Balanced := by
  change ((x.partition.globals.hashTable.d.get? h).bind
    (freedExtent x.partition.globals.freeBlocks)).all
      (FreeCall.listed x.partition.globals.freeBlocks) = true at hc
  have hsame : (FreeCall.updateIndex h now).frees cfg x.partition = none →
      (updateIndexRemove cfg now h x.partition.globals).2 = x.partition.globals →
        ((FreeCall.updateIndex h now).exec cfg x).Balanced := by
    intro hfrees hstate
    refine hx.keep (congrArg Globals.freeBlocks hstate) (congrArg Globals.fragmentation hstate)
      fun e => ?_
    rw [FreeCall.mem_freed, hfrees]
    simp [FreeCall.reuses]
  cases hb : x.partition.globals.hashTable.d.get? h with
  | none =>
    refine hsame ?_ (congrArg Prod.snd (updateIndexRemove_unknown cfg now hb))
    change (x.partition.globals.hashTable.d.get? h).bind _ = none
    rw [hb]
    rfl
  | some b =>
    rw [hb, Option.bind_some] at hc
    have hfrees : (FreeCall.updateIndex h now).frees cfg x.partition =
        freedExtent x.partition.globals.freeBlocks b := by
      change (x.partition.globals.hashTable.d.get? h).bind _ = _
      rw [hb, Option.bind_some]
    cases he : freedExtent x.partition.globals.freeBlocks b with
    | none =>
      refine hsame (hfrees.trans he) ?_
      rcases updateIndexRemove_state cfg now h x.partition.globals with hstate | ⟨b', t, hb', ht, _⟩
      · exact hstate
      · rw [hb] at hb'
        cases hb'
        rw [freedExtent_none he] at ht
        cases ht
    | some e =>
      obtain ⟨t, hat, htree, hsize, hoffset, hset⟩ := freedExtent_some he
      rw [he, Option.all_some] at hc
      -- the size is a key of the tree, so `insert` changes nothing
      have hmem : e.offset ∈ t.offsets e.size := by
        simpa [FreeCall.listed, bucket, htree] using hc
      have hcontains : t.contains b.size = true := by
        rw [← hsize]
        by_contra hno
        rw [IOBTree.offsets, (Dict.contains_eq_false _).mp (Bool.eq_false_iff.mpr hno)] at hmem
        cases hmem
      have hlists : setAt x.partition.globals.freeBlocks b.chunk (t.insert b.size [b.offset]) =
          x.partition.globals.freeBlocks := by
        have hlen := (List.getElem?_eq_some_iff.mp htree).1
        rw [IOBTree.insert, if_pos hcontains, hset]
        obtain ⟨_, rfl⟩ := List.getElem?_eq_some_iff.mp htree
        exact List.set_getElem_self hlen
      have hrun := updateIndexRemove_insert cfg now hb hat
      have hkeep := uncache_keeps cfg h b (flagDeleted now h b { x.partition.globals with
        freeBlocks := setAt x.partition.globals.freeBlocks b.chunk (t.insert b.size [b.offset]) })
      have hin : e ∈ x.freed := by
        have hcount := hx.once e
        have hpos : 0 < (bucket x.partition.globals.freeBlocks e.chunk e.size).count e.offset := by
          apply List.count_pos_iff.mpr
          simpa [bucket, htree] using hmem
        by_contra hno
        rw [if_neg hno] at hcount
        omega
      refine hx.keep ?_ ?_ fun e' => ?_
      · change (updateIndexRemove cfg now h x.partition.globals).2.freeBlocks = _
        rw [hrun]
        exact hkeep.freeBlocks.trans hlists
      · change (updateIndexRemove cfg now h x.partition.globals).2.fragmentation = _
        rw [hrun]
        exact hkeep.fragmentation
      · rw [FreeCall.mem_freed, hfrees, he]
        simp only [FreeCall.reuses, Option.some.injEq, ne_eq, reduceCtorEq, not_false_iff, and_true]
        exact ⟨fun h => h.elim (fun h => h ▸ hin) id, .inr⟩

/-- What a round does to the free lists. -/
theorem collectHash_lists (hbackend : cfg.backend ≠ .rocksdb) (now : Time) (remove : H)
    (g : Globals H) :
    match (g.hashTable.getItem? remove).filter fun b => due now b ∧ cfg.smallBlockLimit < b.size with
    | none => (collectHash cfg now remove g).2.freeBlocks = g.freeBlocks ∧
        (collectHash cfg now remove g).2.fragmentation = g.fragmentation
    | some b => (collectHash cfg now remove g).2.freeBlocks = (freeExtent b g).2.freeBlocks ∧
        (collectHash cfg now remove g).2.fragmentation =
          ⟨g.fragmentation.freeSize + b.size, g.fragmentation.freeCount + 1⟩ := by
  cases hb : g.hashTable.getItem? remove with
  | none =>
    rw [collectHash_unknown hb]
    exact ⟨rfl, rfl⟩
  | some b =>
    by_cases hdue : due now b
    · rw [collectHash_deletes hb hdue]
      by_cases hsize : b.size ≤ cfg.smallBlockLimit
      · rw [Option.filter_some_neg (by simp [hsize]), deleteBlock_small hsize]
        cases hp : cfg.smallBlockDbPath with
        | path =>
          rw [deleteFromSmallBlocks_run hp]
          exact ⟨rfl, rfl⟩
        | list =>
          rw [deleteFromSmallBlocks_list hp]
          exact ⟨rfl, rfl⟩
      · rw [Option.filter_some_pos (by simp [hdue]; omega), deleteBlock_extent hsize hbackend]
        refine ⟨?_, rfl⟩
        dsimp only
        rw [freeExtent_freeBlocks, freeExtent_freeBlocks]
    · obtain ⟨t, hrun⟩ := collectHash_spares cfg hb hdue
      rw [Option.filter_some_neg (by simp [hdue]), hrun]
      exact ⟨rfl, rfl⟩

theorem FreeCall.exec_collect (now : Time) : ((FreeCall.collect now).exec cfg x).partition =
    match x.partition.globals.removeUses with
    | [] => x.partition
    | h :: rest => { x.partition with
        globals := (collectHash cfg now h { x.partition.globals with removeUses := rest }).2 } :=
  rfl

/-- **One round of the collector** that frees nothing twice. -/
theorem FreeSpace.Balanced.collect (hx : x.Balanced) (hbackend : cfg.backend ≠ .rocksdb) {now : Time}
    (hc : FreeCall.balanced cfg x.partition (.collect now) = true) :
    ((FreeCall.collect now).exec cfg x).Balanced := by
  change (nextFreed cfg now x.partition.globals).all (fun b =>
    (freedExtent x.partition.globals.freeBlocks b).any fun e =>
      !FreeCall.listed x.partition.globals.freeBlocks e) = true at hc
  have hfrees : (FreeCall.collect now).frees cfg x.partition =
      (nextFreed cfg now x.partition.globals).bind (freedExtent x.partition.globals.freeBlocks) := rfl
  have hrun := @FreeCall.exec_collect H _ cfg x now
  cases hqueue : x.partition.globals.removeUses with
  | nil =>
    rw [hqueue] at hrun
    have hnext : nextFreed cfg now x.partition.globals = none := by
      unfold nextFreed
      rw [hqueue]
    refine hx.keep (by rw [hrun]) (by rw [hrun]) fun e => ?_
    rw [FreeCall.mem_freed, hfrees, hnext]
    simp [FreeCall.reuses]
  | cons h rest =>
    rw [hqueue] at hrun
    dsimp only at hrun
    have hnext : nextFreed cfg now x.partition.globals =
        (x.partition.globals.hashTable.getItem? h).filter fun b =>
          due now b ∧ cfg.smallBlockLimit < b.size := by
      unfold nextFreed
      rw [hqueue]
    have heffect := collectHash_lists hbackend now h { x.partition.globals with removeUses := rest }
    dsimp only at heffect
    rw [← hnext] at heffect
    cases hb : nextFreed cfg now x.partition.globals with
    | none =>
      rw [hb] at heffect
      refine hx.keep (by rw [hrun]; exact heffect.1) (by rw [hrun]; exact heffect.2) fun e => ?_
      rw [FreeCall.mem_freed, hfrees, hb]
      simp [FreeCall.reuses]
    | some b =>
      rw [hb] at heffect hc
      rw [Option.all_some] at hc
      obtain ⟨e, he, hnew⟩ := (Option.any_eq_true _ _).mp hc
      rw [Bool.not_eq_true'] at hnew
      obtain ⟨t, hat, htree, hsize, hoffset, hset⟩ := freedExtent_some he
      have hlists := heffect.1
      rw [freeExtent_freeBlocks] at hlists
      dsimp only at hlists
      rw [hat] at hlists
      refine hx.give (e := e) ?_ hnew ?_ fun e' => ?_
      · have hfb : ((FreeCall.collect now).exec cfg x).partition.globals.freeBlocks =
            x.partition.globals.freeBlocks.set e.chunk
              (Dict.set t e.size (t.offsets e.size ++ [e.offset])) := by
          rw [hrun, hsize, hoffset, ← hset]
          exact hlists
        rw [hfb]
        refine .mk htree (fun s hs => t.get?_set_ne _ (Ne.symm hs)) ?_
        unfold IOBTree.offsets
        rw [Dict.get?_set_self, Option.getD_some]
        exact List.perm_append_comm
      · rw [hrun, hsize]
        exact heffect.2
      · rw [FreeCall.mem_freed, hfrees, hb, Option.bind_some, he]
        simp [FreeCall.reuses, eq_comm]

/-- **`find_location`** that takes the last extent of a list, or none. -/
theorem FreeSpace.Balanced.findLocation (hx : x.Balanced) {q : QueuedWrite H}
    (hc : FreeCall.balanced cfg x.partition (.findLocation q) = true) :
    ((FreeCall.findLocation q).exec cfg x).Balanced := by
  change (reused q x.partition.volume).all (fun e =>
    decide ((bucket x.partition.globals.freeBlocks e.chunk e.size).length = 1)) = true at hc
  have hreuses := findLocation_reuses q x.partition.volume
  have hrun : ((FreeCall.findLocation q).exec cfg x).partition =
      x.partition.withVolume (VeratyFS.findLocation q x.partition.volume).2 := rfl
  have hfreed : ∀ e', e' ∈ ((FreeCall.findLocation q).exec cfg x).freed ↔
      e' ∈ x.freed ∧ some e' ≠ reused q x.partition.volume := by
    intro e'
    rw [FreeCall.mem_freed]
    simp [FreeCall.frees, FreeCall.reuses]
  generalize hv : (VeratyFS.findLocation q x.partition.volume).2 = v at hreuses hrun
  generalize (VeratyFS.findLocation q x.partition.volume).1 = r at hreuses
  generalize hr : reused q x.partition.volume = o at hreuses hfreed hc
  cases hreuses with
  | nothing lists counters =>
    refine hx.keep (by rw [hrun]; exact lists) (by rw [hrun]; exact counters) fun e => ?_
    simp [hfreed]
  | @popped e t rest tree offsets =>
    rw [Option.all_some, decide_eq_true_eq] at hc
    have htree : x.partition.globals.freeBlocks[e.chunk]? = some t := tree
    have hlast : rest = [] := by
      simpa [bucket, htree, IOBTree.offsets, offsets] using hc
    subst hlast
    have hlen := (List.getElem?_eq_some_iff.mp htree).1
    have hfb : ((FreeCall.findLocation q).exec cfg x).partition.globals.freeBlocks =
        x.partition.globals.freeBlocks.set e.chunk (t.popOffset e.size []) := by
      rw [hrun]
      rfl
    have hback : x.partition.globals.freeBlocks =
        (x.partition.globals.freeBlocks.set e.chunk (t.popOffset e.size [])).set e.chunk t := by
      obtain ⟨_, rfl⟩ := List.getElem?_eq_some_iff.mp htree
      rw [List.set_set, List.set_getElem_self]
    refine hx.take (e := e) ?_ (by rw [hrun]; rfl) fun e' => ?_
    · have hadds : Adds e (x.partition.globals.freeBlocks.set e.chunk (t.popOffset e.size []))
          ((x.partition.globals.freeBlocks.set e.chunk (t.popOffset e.size [])).set e.chunk t) := by
        refine .mk (List.getElem?_set_self hlen) (fun s hs => ?_) ?_
        · unfold IOBTree.popOffset
          rw [if_pos List.isEmpty_nil, Dict.get?_erase, if_neg (Ne.symm hs)]
        · unfold IOBTree.offsets IOBTree.popOffset
          rw [if_pos List.isEmpty_nil, Dict.get?_erase, if_pos rfl, offsets]
          exact .refl _
      rw [hfb]
      rwa [← hback] at hadds
    · rw [hfreed]
      simp

/-- **One balanced call** keeps the lists and the counters. -/
theorem FreeSpace.Balanced.exec (hx : x.Balanced) (hbackend : cfg.backend ≠ .rocksdb) {c : FreeCall H}
    (hc : FreeCall.balanced cfg x.partition c = true) : (c.exec cfg x).Balanced := by
  cases c with
  | updateIndex h now => exact hx.updateIndex hc
  | collect now => exact hx.collect hbackend hc
  | findLocation q => exact hx.findLocation hc
  | others p =>
    refine hx.keep rfl rfl fun e => ?_
    rw [FreeCall.mem_freed]
    simp [FreeCall.frees, FreeCall.reuses]

end

/-- **The free lists hold what was freed and not reused**, each extent once, and the counters are those
of a mount, in every run whose calls are balanced. -/
theorem free_lists_accounted [DecidableEq H] {cfg : Config} (hbackend : cfg.backend ≠ .rocksdb)
    {p : Partition H} (hnodup : ∀ j s, (bucket p.globals.freeBlocks j s).Nodup) {x : FreeSpace H}
    {cs : List (FreeCall H)}
    (hrun : ((freeSpaces cfg).meeting fun x c => FreeCall.balanced cfg x.partition c = true).Run
      (.mounted p) cs x) : x.Accounted := by
  have hx : x.Balanced := by
    refine hrun.invariant (I := FreeSpace.Balanced) ?_ (.mounted hnodup)
    rintro x c _ hx ⟨rfl, hc⟩
    exact hx.exec hbackend hc
  exact hx.accounted

/-! ## A pass of the collector -/

section

variable [DecidableEq H] {cfg : Config}

/-- The loop is so many rounds, or fewer when one raises. -/
theorem collectLoop_rounds (clock : Nat → Time) (n : Nat) (x : FreeSpace H) :
    ∃ cs x', (freeSpaces cfg).Run x cs x' ∧ x'.partition =
      { x.partition with globals := (collectLoop cfg clock n x.partition.globals).2 } := by
  induction n generalizing x with
  | zero => exact ⟨[], x, .nil x, rfl⟩
  | succ n ih =>
    cases hqueue : x.partition.globals.removeUses with
    | nil =>
      refine ⟨[], x, .nil x, ?_⟩
      rw [collectLoop_empty cfg clock (n + 1) hqueue]
    | cons h rest =>
      have hexec := @FreeCall.exec_collect H _ cfg x (clock n)
      rw [hqueue] at hexec
      dsimp only at hexec
      rw [collectLoop_next cfg clock n hqueue]
      cases hrun : collectHash cfg (clock n) h { x.partition.globals with removeUses := rest } with
      | mk r g =>
        rw [hrun] at hexec
        cases r with
        | error e =>
          rw [Py.run_bind_error hrun]
          exact ⟨_, _, .single rfl, hexec⟩
        | ok _ =>
          obtain ⟨cs, x', hrest, hx'⟩ := ih ((FreeCall.collect (clock n)).exec cfg x)
          rw [Py.run_bind_ok hrun]
          refine ⟨_, x', .cons rfl hrest, hx'.trans ?_⟩
          rw [hexec]

/-- **`garbage_collector`** is a number of rounds and the commit of the table. -/
theorem garbageCollector_rounds (clock : Nat → Time) (x : FreeSpace H) :
    ∃ cs x', (freeSpaces cfg).Run x cs x' ∧ x'.partition =
      { x.partition with globals := (garbageCollector cfg clock x.partition.globals).2 } := by
  obtain ⟨cs, x', hrun, hx'⟩ := @collectLoop_rounds H _ cfg clock
    x.partition.globals.removeUses.length x
  rcases garbageCollector_cases cfg clock x.partition.globals with ⟨g, rfl, heq⟩ | ⟨e, heq⟩
  · rw [heq]
    refine ⟨_, _, hrun.append (.single (e := .others { x'.partition with
      globals := { x'.partition.globals with
        hashTable := x'.partition.globals.hashTable.commit } }) rfl), ?_⟩
    change { x'.partition with globals := { x'.partition.globals with
      hashTable := x'.partition.globals.hashTable.commit } } = _
    rw [hx']
  · rw [heq]
    exact ⟨cs, x', hrun, hx'⟩

end

/-! ## Sample runs -/

/-- One full chunk file, and a block of it whose grace period is over after five seconds. -/
def fullChunkFile (queue : List Bytes) : Partition Bytes :=
  { oneChunkFile with
    globals := { oneChunkFile.globals with
      hashTable := (HashTable.new true).setItem [1]
        { hash := [1], offset := 65, size := 1, DELETED := true, DELETION_TIME := some 0 }
      removeUses := queue }
    datastore := [⟨0, 100, 66, true, false⟩] }

theorem fullChunkFile_nodup (queue : List Bytes) (j s : Nat) :
    (bucket (fullChunkFile queue).globals.freeBlocks j s).Nodup := by
  have hempty : bucket (.replicate 2 (Dict.empty : IOBTree)) j s = [] := by
    unfold bucket
    rw [List.getElem?_replicate]
    split <;> rfl
  change (bucket (.replicate 2 (Dict.empty : IOBTree)) j s).Nodup
  rw [hempty]
  exact List.nodup_nil

/-- The collector frees the block, and another one takes its place. -/
theorem free_lists_accounted_sample :
    let x := System.after (FreeCall.exec mmapConfig) (.mounted (fullChunkFile [[1]]))
      [.collect (seconds 6), .findLocation ⟨[2], [2], false, [2], 0, 0⟩]
    x.Accounted :=
  free_lists_accounted (by decide) (fullChunkFile_nodup _)
    (System.run_meeting_after (FreeCall.exec mmapConfig)
      (fun x c => FreeCall.balanced mmapConfig x.partition c) _ _ (by decide))

/-- **A dropped extent is not counted**: a known hash is dropped, and the counters stay at zero. -/
theorem dropped_extent_uncounted :
    ¬ ∀ (p : Partition Bytes) (x : FreeSpace Bytes) (cs : List (FreeCall Bytes)),
      (∀ j s, (bucket p.globals.freeBlocks j s).Nodup) →
        (freeSpaces mmapConfig).Run (.mounted p) cs x → x.Accounted := by
  intro h
  have haccounted := h (fullChunkFile []) _ [.updateIndex [1] 0] (fullChunkFile_nodup _)
    (System.run_after (FreeCall.exec mmapConfig) _ _)
  exact absurd haccounted.counters (by decide)

end VeratyFS
