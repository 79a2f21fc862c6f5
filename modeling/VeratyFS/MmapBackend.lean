import VeratyFS.Collector
import VeratyFS.Lib.Extents

/-!
# The mmap backend

`storage/mmap_backend.py` with its coroutines run to completion: `find_location` takes space behind
the position of a chunk file that is not full, and else from a free list.

* `ChunkFile` — what `DataStore` keeps for a chunk file; `Volume` — what `find_location` changes.
* `findLocation`, `mmCommit` — as in the source; `findLocation_run`: where the space comes from.
* `Partition`, `writeExtent` — the state of the program on this backend, and the writer.
* `treeExtents`, `freeExtents` — the free lists as ranges of the chunk files;
  `freeExtents_set`, `freeExtents_pop`.
-/

set_option autoImplicit false

namespace VeratyFS

open Pylib
open scoped List

variable {H : Type}

/-! ## Chunk files -/

/-- A `DataStore` of this backend. -/
structure ChunkFile where
  chunk : Int
  size : Nat
  nextWritePosition : Nat
  IS_FULL : Bool
  LOCKED : Bool
  deriving DecidableEq, Repr

namespace ChunkFile

/-- Less than 1 MiB is left behind the position. -/
def pastMargin (size nextWritePosition : Nat) : Bool := decide (nextWritePosition + 1024 * 1024 > size)

/-- `DataStore(chunk, size, path, next_write_position)`; a new file starts behind its header, at 65. -/
def new (chunk : Int) (size nextWritePosition : Nat) : ChunkFile :=
  ⟨chunk, size, nextWritePosition, pastMargin size nextWritePosition, false⟩

/-- The position moves on, and the file may be full then. -/
def advance (ds : ChunkFile) (n : Nat) : ChunkFile :=
  { ds with
    nextWritePosition := ds.nextWritePosition + n
    IS_FULL := if pastMargin ds.size (ds.nextWritePosition + n) then true else ds.IS_FULL }

def isOpen (ds : ChunkFile) : Bool := !ds.IS_FULL && !ds.LOCKED

end ChunkFile

/-- `q['chunk']` and `q['block']`. -/
structure BlockAddress where
  chunk : Int
  block : Int
  deriving DecidableEq, Repr

/-- The arguments that `find_location` changes. -/
structure Volume where
  datastore : List ChunkFile
  freeBlocks : List IOBTree
  fragmentation : Fragmentation

/-! ## Locations -/

/-- `fb.minKey(n)`; `none` is its `ValueError`. -/
def IOBTree.minKey (t : IOBTree) (n : Nat) : Option Nat := (t.keys.filter (n ≤ ·)).min?

/-- The list of a size without its first offset; an empty list goes. -/
def IOBTree.popOffset (t : IOBTree) (size : Nat) (rest : List Int) : IOBTree :=
  if rest.isEmpty then t.erase size else t.set size rest

/-- `fb.get(s).pop(0)`. -/
def reuseExtent (ds : Nat) (fb : IOBTree) (s : Nat) : Py PyError Volume (Option BlockAddress) := do
  let offsets ← Py.ofOption .attributeError (fb.get? s)
  match offsets with
  | [] => Py.raise .indexError
  | block :: rest =>
    Py.modify fun v => { v with
      freeBlocks := v.freeBlocks.set ds (fb.popOffset s rest)
      fragmentation := if rest.isEmpty then
        ⟨v.fragmentation.freeSize - s, v.fragmentation.freeCount - 1⟩ else v.fragmentation }
    return some ⟨ds, block⟩

/-- `for ds, fb in enumerate(free_blocks)`. -/
def reuseFrom (q : QueuedWrite H) : Nat → List IOBTree → Py PyError Volume (Option BlockAddress)
  | _, [] => return none
  | ds, fb :: rest =>
    match fb.minKey q.compressedData.length with
    | some s => reuseExtent ds fb s
    | none => if rest.isEmpty then Py.raise (.fuseError .ENOSPC) else reuseFrom q (ds + 1) rest

/-- The first store that is neither full nor locked, with its index. -/
def openStore (datastore : List ChunkFile) : Option (ChunkFile × Nat) :=
  datastore.zipIdx.find? fun e => e.1.isOpen

/-- `find_location`; without a store, `q` gets neither `chunk` nor `block`. -/
def findLocation (q : QueuedWrite H) : Py PyError Volume (Option BlockAddress) := do
  let v ← Py.read
  match openStore v.datastore with
  | some (ds, idx) =>
    Py.modify fun v => { v with datastore := v.datastore.set idx (ds.advance q.payload.length) }
    return some ⟨ds.chunk, ds.nextWritePosition⟩
  | none => if v.datastore.isEmpty then return none else reuseFrom q 0 v.freeBlocks

/-- `mm_commit`; `seek` and `write` raise a `ValueError` outside the file. -/
def mmCommit (q : QueuedWrite H) : Py PyError Volume (QueuedWrite H) := do
  let found ← findLocation q
  let loc ← Py.ofOption .keyError found
  let v ← Py.read
  let ds ← Py.ofOption .indexError (getAt? v.datastore loc.chunk)
  if loc.block < 0 ∨ ds.size < loc.block + q.payload.length then
    Py.raise .valueError
  else
    return { q with chunk := loc.chunk, block := loc.block }

/-! ## The writer -/

/-- The program on this backend: its module state, the chunk files, and how many `FileBlock`s of
the files refer to a hash. -/
structure Partition (H : Type) where
  globals : Globals H
  datastore : List ChunkFile
  references : H → Nat

namespace Partition

def volume (p : Partition H) : Volume := ⟨p.datastore, p.globals.freeBlocks, p.globals.fragmentation⟩

def withVolume (p : Partition H) (v : Volume) : Partition H :=
  { p with
    globals := { p.globals with freeBlocks := v.freeBlocks, fragmentation := v.fragmentation }
    datastore := v.datastore }

def onVolume {α : Type} (m : Py PyError Volume α) : Py PyError (Partition H) α :=
  Py.zoom volume (fun v p => p.withVolume v) m

def onGlobals {α : Type} (m : Task H α) : Py PyError (Partition H) α :=
  Py.zoom globals (fun g p => { p with globals := g }) m

end Partition

/-- The store half of an iteration. -/
def commitExtent [DecidableEq H] (cfg : Config) (q : QueuedWrite H) :
    Py PyError (Partition H) (QueuedWrite H) :=
  if isSmallBlock cfg q then do
    let _written ← Partition.onGlobals (Globals.onSmallBlocks (writeSmallBlock cfg q.hash q.payload))
    return { q with chunk := -1, block := -1 }
  else
    Py.attempt (Partition.onVolume (mmCommit q)) fun _ => Py.raise (.fuseError .ENOSPC)

/-- One iteration of the loop of `write_new_blocks`. -/
def writeExtent [DecidableEq H] (cfg : Config) : Py PyError (Partition H) Unit := do
  let p ← Py.read
  match p.globals.writeBuffer.popleft with
  | none => return ()
  | some (q, rest) =>
    Py.modify fun p => { p with globals := { p.globals with writeBuffer := rest } }
    Py.attempt
      (do
        let q' ← commitExtent cfg q
        Partition.onGlobals (installBlock cfg q'))
      (fun e => if e = .keyError then Py.raise (.fuseError .ENOSPC) else Py.ret ())

/-! ## Where the space comes from -/

section

variable {q : QueuedWrite H} {v v' : Volume}

theorem IOBTree.minKey_spec {t : IOBTree} {n s : Nat} (h : t.minKey n = some s) :
    n ≤ s ∧ ∃ offsets, t.get? s = some offsets := by
  obtain ⟨hmem, hle⟩ := List.mem_filter.mp (List.min?_mem h)
  exact ⟨of_decide_eq_true hle, t.mem_keys_iff.mp hmem⟩

theorem openStore_spec {datastore : List ChunkFile} {ds : ChunkFile} {idx : Nat}
    (h : openStore datastore = some (ds, idx)) : datastore[idx]? = some ds ∧ ds.isOpen = true := by
  refine ⟨?_, List.find?_some (p := fun e : ChunkFile × Nat => e.1.isOpen) h⟩
  exact List.mem_zipIdx_iff_getElem?.mp (List.mem_of_find?_eq_some h)

/-- A run of `find_location`. -/
inductive LocationRun (q : QueuedWrite H) (v : Volume) :
    Except PyError (Option BlockAddress) → Volume → Prop
  | failed (e : PyError) : LocationRun q v (.error e) v
  | nowhere : LocationRun q v (.ok none) v
  | ahead {ds : ChunkFile} {idx : Nat} (first : openStore v.datastore = some (ds, idx)) :
      LocationRun q v (.ok (some ⟨ds.chunk, ds.nextWritePosition⟩))
        { v with datastore := v.datastore.set idx (ds.advance q.payload.length) }
  | reused {ds s : Nat} {fb : IOBTree} {block : Int} {rest : List Int} {fr : Fragmentation}
      (full : openStore v.datastore = none) (tree : v.freeBlocks[ds]? = some fb)
      (offsets : fb.get? s = some (block :: rest)) (large : q.compressedData.length ≤ s) :
      LocationRun q v (.ok (some ⟨ds, block⟩))
        { v with freeBlocks := v.freeBlocks.set ds (fb.popOffset s rest), fragmentation := fr }

theorem reuseFrom_run (full : openStore v.datastore = none) : ∀ (trees : List IOBTree) (i : Nat),
    (∀ j t, trees[j]? = some t → v.freeBlocks[i + j]? = some t) →
      LocationRun q v (reuseFrom q i trees v).1 (reuseFrom q i trees v).2
  | [], _, _ => .nowhere
  | fb :: rest, i, h => by
    rw [reuseFrom]
    cases hkey : fb.minKey q.compressedData.length with
    | none =>
      dsimp only
      split
      · exact .failed _
      · refine reuseFrom_run full rest (i + 1) fun j t ht => ?_
        have hj := h (j + 1) t ht
        rwa [Nat.add_assoc, Nat.add_comm 1]
    | some s =>
      obtain ⟨hlarge, offsets, hoffsets⟩ := IOBTree.minKey_spec hkey
      have htree : v.freeBlocks[i]? = some fb := h 0 fb rfl
      dsimp only
      unfold reuseExtent
      rw [hoffsets]
      cases offsets with
      | nil => exact .failed _
      | cons block others => exact .reused full htree hoffsets hlarge

/-- **`find_location`** takes space ahead of the position of the first open store, or, when all are
full, from a free list of at least the size. -/
theorem findLocation_run (q : QueuedWrite H) (v : Volume) :
    LocationRun q v (findLocation q v).1 (findLocation q v).2 := by
  unfold findLocation
  rw [Py.run_bind_ok (Py.run_read v)]
  cases hfirst : openStore v.datastore with
  | some e => exact .ahead hfirst
  | none =>
    dsimp only
    split
    · exact .nowhere
    · exact reuseFrom_run hfirst v.freeBlocks 0 fun j t ht => by rwa [Nat.zero_add]

/-- `mm_commit` leaves the volume as `find_location` does; if it returns, the block is where
`find_location` said. -/
theorem mmCommit_run (q : QueuedWrite H) (v : Volume) :
    (mmCommit q v).2 = (findLocation q v).2 ∧ ∀ q', (mmCommit q v).1 = .ok q' →
      ∃ loc, (findLocation q v).1 = .ok (some loc) ∧
        q' = { q with chunk := loc.chunk, block := loc.block } := by
  unfold mmCommit
  cases hfind : findLocation q v with
  | mk r v' =>
    cases r with
    | error e =>
      rw [Py.run_bind_error hfind]
      exact ⟨rfl, fun _ h => by cases h⟩
    | ok found =>
      rw [Py.run_bind_ok hfind]
      cases found with
      | none => exact ⟨rfl, fun _ h => by cases h⟩
      | some loc =>
        have hread : (Py.read : Py PyError Volume Volume) v' = (.ok v', v') := rfl
        have hloc : (Py.ofOption PyError.keyError (some loc) : Py PyError Volume BlockAddress) v' =
          (.ok loc, v') := rfl
        rw [Py.run_bind_ok hloc, Py.run_bind_ok hread]
        cases hds : getAt? v'.datastore loc.chunk with
        | none => exact ⟨rfl, fun _ h => by cases h⟩
        | some ds =>
          have hok : (Py.ofOption PyError.indexError (some ds) : Py PyError Volume ChunkFile) v' =
            (.ok ds, v') := rfl
          rw [Py.run_bind_ok hok]
          split
          · exact ⟨rfl, fun _ h => by cases h⟩
          · exact ⟨rfl, fun q' h => ⟨loc, rfl, (Except.ok.inj h).symm⟩⟩

end

/-! ## What the writer does -/

section

variable [DecidableEq H] {cfg : Config} {p : Partition H} {q : QueuedWrite H}
  {rest : WriteCache (QueuedWrite H)}

/-- The queue without its head. -/
def Partition.popped (p : Partition H) (rest : WriteCache (QueuedWrite H)) : Partition H :=
  { p with globals := { p.globals with writeBuffer := rest } }

/-- The block is where `q` says. -/
def Partition.installs (cfg : Config) (q : QueuedWrite H) (p : Partition H) : Partition H :=
  { p with globals := installed cfg q p.globals }

theorem writeExtent_idle (h : p.globals.writeBuffer.popleft = none) : writeExtent cfg p = (.ok (), p) := by
  unfold writeExtent
  rw [Py.run_bind_ok (Py.run_read p), h]
  rfl

theorem writeExtent_pop (hq : p.globals.writeBuffer.popleft = some (q, rest)) :
    (writeExtent cfg p).2 =
      match commitExtent cfg q (p.popped rest) with
      | (.ok q', p') => p'.installs cfg q'
      | (.error _, p') => p' := by
  have hpop : writeExtent cfg p = Py.attempt
      (do
        let q' ← commitExtent cfg q
        Partition.onGlobals (installBlock cfg q'))
      (fun e => if e = .keyError then Py.raise (.fuseError .ENOSPC) else Py.ret ()) (p.popped rest) := by
    unfold writeExtent
    rw [Py.run_bind_ok (Py.run_read p), hq]
    rfl
  rw [hpop]
  cases hcommit : commitExtent cfg q (p.popped rest) with
  | mk r p' =>
    cases r with
    | ok q' =>
      have hinstall : Partition.onGlobals (installBlock cfg q') p' = (.ok (), p'.installs cfg q') :=
        Py.run_zoom (installBlock_run ..)
      exact congrArg Prod.snd (Py.run_attempt_ok ((Py.run_bind_ok hcommit).trans hinstall))
    | error e =>
      refine (congrArg Prod.snd (Py.run_attempt_error (Py.run_bind_error hcommit))).trans ?_
      split <;> rfl

/-- A small block takes no space. -/
theorem commitExtent_small (hsmall : isSmallBlock cfg q) (p : Partition H) :
    (∃ smbs, commitExtent cfg q p = (.ok { q with chunk := -1, block := -1 },
        { p with globals := { p.globals with smallBlocks := smbs } })) ∨
      ∃ e smbs, commitExtent cfg q p =
        (.error e, { p with globals := { p.globals with smallBlocks := smbs } }) := by
  unfold commitExtent
  rw [if_pos hsmall]
  have hrun : Partition.onGlobals (Globals.onSmallBlocks (writeSmallBlock cfg q.hash q.payload)) p =
      ((writeSmallBlock cfg q.hash q.payload p.globals.smallBlocks).1,
        { p with globals := { p.globals with
          smallBlocks := (writeSmallBlock cfg q.hash q.payload p.globals.smallBlocks).2 } }) := rfl
  cases hw : (writeSmallBlock cfg q.hash q.payload p.globals.smallBlocks).1 with
  | ok n =>
    rw [hw] at hrun
    exact .inl ⟨_, Py.run_bind_ok hrun⟩
  | error e =>
    rw [hw] at hrun
    exact .inr ⟨e, _, Py.run_bind_error hrun⟩

/-- Any other block is committed by `mm_commit`. -/
theorem commitExtent_large (hlarge : ¬ isSmallBlock cfg q) (p : Partition H) :
    (commitExtent cfg q p).2 = p.withVolume (findLocation q p.volume).2 ∧
      ∀ q', (commitExtent cfg q p).1 = .ok q' → ∃ loc, (findLocation q p.volume).1 = .ok (some loc) ∧
        q' = { q with chunk := loc.chunk, block := loc.block } := by
  obtain ⟨hstate, hok⟩ := mmCommit_run q p.volume
  have hrun : Partition.onVolume (mmCommit q) p =
      ((mmCommit q p.volume).1, p.withVolume (findLocation q p.volume).2) := by
    rw [← hstate]
    rfl
  unfold commitExtent
  rw [if_neg hlarge]
  cases hm : (mmCommit q p.volume).1 with
  | ok q' =>
    rw [hm] at hrun hok
    rw [Py.run_attempt_ok hrun]
    exact ⟨rfl, fun q'' h => hok q'' h⟩
  | error e =>
    rw [hm] at hrun
    rw [Py.run_attempt_error hrun]
    exact ⟨rfl, fun _ h => by cases h⟩

end

/-! ## Free lists as extents -/

/-- The free extents of a tree over a size. -/
def treeExtents (limit : Nat) (c : Int) (t : IOBTree) : List Extent :=
  t.entries.flatMap fun e => if limit < e.1 then e.2.map fun offset => ⟨c, offset, e.1⟩ else []

/-- The free extents of all trees, the first of which is that of a chunk. -/
def freeExtents (limit : Nat) : Nat → List IOBTree → List Extent
  | _, [] => []
  | c, t :: trees => treeExtents limit c t ++ freeExtents limit (c + 1) trees

section

variable {limit c i : Nat} {t t' : IOBTree} {fb : List IOBTree} {e : Extent} {k : Nat}

/-- The free offsets of a size. -/
def IOBTree.offsets (t : IOBTree) (k : Nat) : List Int := (t.get? k).getD []

/-- The extents of one size. -/
def sizeExtents (limit : Nat) (c : Int) (k : Nat) (offsets : List Int) : List Extent :=
  if limit < k then offsets.map fun offset => ⟨c, offset, k⟩ else []

/-- The extents of one size, and the others. -/
theorem treeExtents_split (limit : Nat) (c : Int) (t : IOBTree) (k : Nat) :
    (treeExtents limit c t).Perm (sizeExtents limit c k (t.offsets k) ++ treeExtents limit c (t.erase k)) := by
  unfold IOBTree.offsets
  cases hk : t.get? k with
  | some offsets => exact (t.entries_erase hk).flatMap_right _
  | none =>
    have hsame : sizeExtents limit c k [] = [] := by
      unfold sizeExtents
      split <;> rfl
    rw [Option.getD_none, hsame, List.nil_append]
    exact (t.entries_erase_missing hk).flatMap_right _

/-- The offsets of one size change. -/
theorem treeExtents_change (limit : Nat) {l : List Int} (hother : ∀ x, x ≠ k → t'.get? x = t.get? x)
    (hoffsets : (t'.offsets k).Perm (l ++ t.offsets k)) (c : Int) :
    (treeExtents limit c t').Perm (sizeExtents limit c k l ++ treeExtents limit c t) := by
  have hrest : (treeExtents limit c (t'.erase k)).Perm (treeExtents limit c (t.erase k)) :=
    (Dict.entries_erase_congr hother).flatMap_right _
  have hsize : (sizeExtents limit c k (t'.offsets k)).Perm
      (sizeExtents limit c k l ++ sizeExtents limit c k (t.offsets k)) := by
    unfold sizeExtents
    split
    · rw [← List.map_append]
      exact hoffsets.map _
    · exact .refl _
  calc treeExtents limit c t'
    _ ~ sizeExtents limit c k (t'.offsets k) ++ treeExtents limit c (t'.erase k) :=
        treeExtents_split limit c t' k
    _ ~ sizeExtents limit c k l ++ sizeExtents limit c k (t.offsets k) ++ treeExtents limit c (t.erase k) :=
        hsize.append hrest
    _ ~ sizeExtents limit c k l ++ treeExtents limit c t := by
        rw [List.append_assoc]
        exact (treeExtents_split limit c t k).symm.append_left _

/-- One tree changes. -/
theorem freeExtents_set (t' : IOBTree) {l : List Extent} (ht : fb[i]? = some t)
    (h : (treeExtents limit (c + i : Nat) t').Perm (l ++ treeExtents limit (c + i : Nat) t)) :
    (freeExtents limit c (fb.set i t')).Perm (l ++ freeExtents limit c fb) := by
  induction fb generalizing i c with
  | nil => cases ht
  | cons t₀ fb ih =>
    cases i with
    | zero =>
      cases ht
      have happ := h.append_right (freeExtents limit (c + 1) fb)
      rw [List.append_assoc] at happ
      exact happ
    | succ i =>
      have hrest := ih (c := c + 1) ht (by rwa [Nat.add_assoc, Nat.add_comm 1])
      refine (hrest.append_left _).trans ?_
      show treeExtents limit c t₀ ++ (l ++ freeExtents limit (c + 1) fb) ~
        l ++ (treeExtents limit c t₀ ++ freeExtents limit (c + 1) fb)
      rw [← List.append_assoc, ← List.append_assoc]
      exact List.perm_append_comm.append_right _

/-- **What `find_location` takes** from a free list. -/
theorem freeExtents_pop {offset : Int} {rest : List Int} (ht : fb[i]? = some t)
    (hk : t.get? k = some (offset :: rest)) (large : limit < k) :
    (freeExtents limit 0 fb).Perm (⟨i, offset, k⟩ :: freeExtents limit 0 (fb.set i (t.popOffset k rest))) := by
  have hother : ∀ x, x ≠ k → t.get? x = (t.popOffset k rest).get? x := by
    intro x hx
    unfold IOBTree.popOffset
    split
    · rw [Dict.get?_erase, if_neg (Ne.symm hx)]
    · exact (t.get?_set_ne _ (Ne.symm hx)).symm
  have hoffsets : (t.offsets k).Perm ([offset] ++ (t.popOffset k rest).offsets k) := by
    unfold IOBTree.offsets IOBTree.popOffset
    rw [hk, Option.getD_some]
    cases rest with
    | nil =>
      rw [if_pos List.isEmpty_nil, Dict.get?_erase, if_pos rfl]
      exact .refl _
    | cons o rest =>
      rw [if_neg (by simp), t.get?_set_self]
      exact .refl _
  obtain ⟨hlen, htree⟩ := List.getElem?_eq_some_iff.mp ht
  have hset : (fb.set i (t.popOffset k rest)).set i t = fb := by
    rw [List.set_set, ← htree]
    exact List.set_getElem_self hlen
  have hchange := treeExtents_change limit hother hoffsets i
  unfold sizeExtents at hchange
  rw [if_pos large] at hchange
  have hfree := freeExtents_set t (c := 0) (t := t.popOffset k rest)
    (List.getElem?_set_self hlen) (by rwa [Nat.zero_add])
  rw [hset] at hfree
  exact hfree

end

/-! ## Extents that are given back -/

section

variable {b : Block H} {g : Globals H} {fb : List IOBTree} {tree : IOBTree}

/-- The offset of a block joins those of its size. -/
theorem freeExtent_freeBlocks (b : Block H) (g : Globals H) :
    (freeExtent b g).2.freeBlocks = match getAt? g.freeBlocks b.chunk with
      | some tree => setAt g.freeBlocks b.chunk (tree.set b.size (tree.offsets b.size ++ [b.offset]))
      | none => g.freeBlocks := by
  change (Py.attempt (appendExtent b)
    (fun e => if e = .attributeError then insertExtent b else Py.raise e) g.freeBlocks).2 = _
  have happend : appendExtent b g.freeBlocks =
      (Py.ofOption PyError.indexError (getAt? g.freeBlocks b.chunk) >>= fun tree =>
        Py.ofOption PyError.attributeError (tree.get? b.size) >>= fun offsets =>
          Py.modify fun fb => setAt fb b.chunk (tree.set b.size (offsets ++ [b.offset]))) g.freeBlocks := rfl
  cases ht : getAt? g.freeBlocks b.chunk with
  | none =>
    rw [ht] at happend
    rw [Py.run_attempt_error happend]
    rfl
  | some tree =>
    rw [ht] at happend
    unfold IOBTree.offsets
    dsimp only
    cases hk : tree.get? b.size with
    | some offsets =>
      have hrun : appendExtent b g.freeBlocks =
          (.ok (), setAt g.freeBlocks b.chunk (tree.set b.size (offsets ++ [b.offset]))) := by
        refine happend.trans ?_
        change (Py.ofOption PyError.attributeError (tree.get? b.size) >>= _) g.freeBlocks = _
        rw [hk]
        rfl
      rw [Py.run_attempt_ok hrun]
      rfl
    | none =>
      have hrun : appendExtent b g.freeBlocks = (.error .attributeError, g.freeBlocks) := by
        refine happend.trans ?_
        change (Py.ofOption PyError.attributeError (tree.get? b.size) >>= _) g.freeBlocks = _
        rw [hk]
        rfl
      rw [Py.run_attempt_error hrun]
      refine (congrArg Prod.snd (insertExtent_eq ht)).trans ?_
      unfold IOBTree.insert
      rw [if_neg (by rw [(Dict.contains_eq_false _).mpr hk]; exact Bool.false_ne_true)]
      rfl

variable [DecidableEq H]

/-- A round gives an extent back when the entry is due, and too large for the small blocks. -/
theorem collectHash_freeBlocks {cfg : Config} (hbackend : cfg.backend ≠ .rocksdb) (now : Time)
    {remove : H} (hb : g.hashTable.d.get? remove = some b) :
    (collectHash cfg now remove g).2.freeBlocks =
      if due now b ∧ cfg.smallBlockLimit < b.size then (freeExtent b g).2.freeBlocks
      else g.freeBlocks := by
  by_cases hdue : due now b
  · rw [collectHash_due hb hdue]
    by_cases hsize : b.size ≤ cfg.smallBlockLimit
    · rw [deleteBlock_small hsize, if_neg fun h => by omega]
      cases hp : cfg.smallBlockDbPath with
      | path => rw [deleteFromSmallBlocks_run hp]
      | list => rw [deleteFromSmallBlocks_list hp]
    · rw [deleteBlock_extent hsize hbackend, if_pos ⟨hdue, by omega⟩, freeExtent_freeBlocks,
        freeExtent_freeBlocks]
  · obtain ⟨t, hrun, _⟩ := collectHash_notDue cfg hb hdue
    rw [hrun, if_neg fun h => hdue h.1]

end

end VeratyFS
