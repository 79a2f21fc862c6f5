import VeratyFS.Datastructures
import VeratyFS.Lib.Dict
import VeratyFS.Lib.Fifo
import VeratyFS.Lib.Py

/-!
# The write-ahead queue (`writeahead.py`)

A deque, and a file for the values that find it full.  `popleft` reads the file in its `except
KeyError`; an empty deque raises an `IndexError`.  `self.mm`, which `read_fom_disk` uses, is never
assigned.

* `WalFile`, `WriteAhead` — the file; the object, and its methods under the source's names.
* `WalCall`, `Journal` — the calls on a queue; the queue beside the history of its values.
* `popleft_eq`, `append_kept`, `append_full` — what the methods do to the deque.
* `Spread` — where the values of the queue are, as long as none was passed over.
* `write_ahead_fifo_iff` — which runs are runs of a queue.
-/

set_option autoImplicit false

namespace VeratyFS

open Pylib

inductive WalError where
  | indexError
  | keyError
  | typeError
  | valueError
  | attributeError
  | stopIteration
  | osError
  | picklingError
  deriving DecidableEq, Repr

/-! ## The file -/

/-- `writeahead.wal`; behind `size` every byte is 0. -/
structure WalFile where
  size : Nat
  byte : Nat → UInt8

namespace WalFile

/-- `b'INITIALIZATION'`. -/
def header : Bytes := [73, 78, 73, 84, 73, 65, 76, 73, 90, 65, 84, 73, 79, 78]

/-- `f.write(b'INITIALIZATION')` and `f.truncate(size)` on an empty file. -/
def new (size : Nat) : WalFile := ⟨size, fun i => if i < size then header.getD i 0 else 0⟩

/-- `f.truncate(size)` with a larger size. -/
def truncate (f : WalFile) (size : Nat) : WalFile := { f with size := size }

/-- The bytes from `pos` on are replaced by those of `data`. -/
def write (f : WalFile) (pos : Nat) (data : Bytes) : WalFile :=
  { f with byte := fun i => if i < pos then f.byte i else data.getD (i - pos) (f.byte i) }

end WalFile

/-- Where the operating system fails: in `check_size`, in the `open` or the `mmap` of
    `save_to_disk`, or when the file is closed. -/
inductive DiskFault where
  | checking
  | mapping
  | closing
  deriving DecidableEq, Repr

/-! ## The object -/

structure WriteAhead (α : Type) where
  d : List α
  /-- Positions in the file, and numbers of bytes. -/
  onDisk : Dict Nat Nat
  nextPos : Nat
  file : WalFile

namespace WriteAhead

variable {α : Type}

/-- `__init__`. -/
def new (initialSize : Nat) : WriteAhead α := ⟨[], .empty, 0, .new initialSize⟩

/-- A call that fails if the fault is there. -/
def reach (point : DiskFault) (fault : Option DiskFault) : Py WalError (WriteAhead α) Unit :=
  if fault = some point then Py.raise .osError else return ()

def checkSize (fault : Option DiskFault) : Py WalError (WriteAhead α) Unit := do
  reach .checking fault
  Py.modify fun wa =>
    if wa.nextPos + 1024 * 1024 ≥ wa.file.size then
      { wa with file := wa.file.truncate (wa.file.size + 10 * 1024 ^ 2) }
    else wa

/-- `mm.seek(self._next_pos)`, `mm.write(data)` and `mm.tell()`; behind the end of the map `write`
    raises a `ValueError`. -/
def writeMap (data : Bytes) : Py WalError (WriteAhead α) (Nat × Nat) := do
  let wa ← Py.read
  if wa.nextPos + data.length > wa.file.size then
    Py.raise .valueError
  else
    Py.modify fun wa => { wa with
      file := wa.file.write wa.nextPos data
      nextPos := wa.nextPos + data.length }
    return (wa.nextPos + data.length, data.length)

/-- The `try` block of `save_to_disk`. -/
def saveBlock (dumps : α → Option Bytes) (fault : Option DiskFault) (cp : α) :
    Py WalError (WriteAhead α) (Option (Nat × Nat)) := do
  checkSize fault
  reach .mapping fault
  let data ← Py.ofOption .picklingError (dumps cp)
  let saved ← writeMap data
  reach .closing fault
  return some saved

/-- Every exception is printed and passed over; then there is no result. -/
def saveToDisk (dumps : α → Option Bytes) (fault : Option DiskFault) (cp : α) :
    Py WalError (WriteAhead α) (Option (Nat × Nat)) :=
  Py.attempt (saveBlock dumps fault cp) fun _ => return none

/-- `self.mm.seek(k)` raises an `AttributeError`, which is printed and passed over. -/
def readFromDisk (_k : Nat) : Py WalError (WriteAhead α) (Option α) :=
  Py.attempt (Py.raise .attributeError) fun _ => return none

/-- `self.d.popleft()` of a `deque`. -/
def dequePopleft : Py WalError (WriteAhead α) (Option α) := do
  let wa ← Py.read
  match wa.d with
  | [] => Py.raise .indexError
  | value :: d =>
    Py.modify fun wa => { wa with d := d }
    return some value

def popleft : Py WalError (WriteAhead α) (Option α) :=
  Py.attempt dequePopleft fun
    | .keyError => do
      let wa ← Py.read
      let a ← Py.ofOption .stopIteration wa.onDisk.keys.head?
      let val ← readFromDisk a
      Py.modify fun wa => { wa with onDisk := wa.onDisk.erase a }
      return val
    | _ => Py.raise .keyError

/-- The index is not used.  `pos, written = None` raises a `TypeError`. -/
def insert (writeBufferSize : Nat) (dumps : α → Option Bytes) (fault : Option DiskFault)
    (_index : Int) (value : α) : Py WalError (WriteAhead α) Unit := do
  let wa ← Py.read
  if wa.d.length < writeBufferSize then
    Py.modify fun wa => { wa with d := wa.d ++ [value] }
  else
    let saved ← saveToDisk dumps fault value
    let (pos, written) ← Py.ofOption .typeError saved
    Py.modify fun wa => { wa with onDisk := wa.onDisk.set pos written }

def append (writeBufferSize : Nat) (dumps : α → Option Bytes) (fault : Option DiskFault)
    (value : α) : Py WalError (WriteAhead α) Unit :=
  insert writeBufferSize dumps fault 0 value

/-! ## What the methods do to the deque -/

theorem popleft_eq (wa : WriteAhead α) : popleft wa =
    match wa.d with
    | [] => (.error .keyError, wa)
    | value :: d => (.ok (some value), { wa with d := d }) := by
  obtain ⟨d, onDisk, nextPos, file⟩ := wa
  cases d with
  | nil => rfl
  | cons value d => rfl

theorem reach_d (point : DiskFault) (fault : Option DiskFault) :
    Py.Keeps (InvImage Eq (d (α := α))) (reach point fault) := by
  unfold reach
  split
  · exact Py.keeps_raise _
  · exact Py.keeps_pure _

theorem checkSize_d (fault : Option DiskFault) :
    Py.Keeps (InvImage Eq (d (α := α))) (checkSize fault) := by
  refine Py.keeps_bind (reach_d _ _) fun _ => Py.keeps_modify fun wa => ?_
  split <;> rfl

theorem writeMap_d (data : Bytes) : Py.Keeps (InvImage Eq (d (α := α))) (writeMap data) := by
  refine Py.keeps_bind Py.keeps_read fun wa => ?_
  split
  · exact Py.keeps_raise _
  · exact Py.keeps_bind (Py.keeps_modify fun _ => rfl) fun _ => Py.keeps_pure _

/-- Saving a value leaves the deque as it is. -/
theorem saveToDisk_d (dumps : α → Option Bytes) (fault : Option DiskFault) (cp : α) :
    Py.Keeps (InvImage Eq d) (saveToDisk dumps fault cp) := by
  refine Py.keeps_attempt ?_ fun _ => Py.keeps_pure _
  refine Py.keeps_bind (checkSize_d _) fun _ => Py.keeps_bind (reach_d _ _) fun _ => ?_
  refine Py.keeps_bind (Py.keeps_ofOption _ _) fun data => ?_
  refine Py.keeps_bind (writeMap_d _) fun _ => Py.keeps_bind (reach_d _ _) fun _ => ?_
  exact Py.keeps_pure _

variable {writeBufferSize : Nat} {wa : WriteAhead α}

theorem append_kept (h : wa.d.length < writeBufferSize) (dumps : α → Option Bytes)
    (fault : Option DiskFault) (value : α) :
    append writeBufferSize dumps fault value wa = (.ok (), { wa with d := wa.d ++ [value] }) := by
  unfold append insert
  rw [Py.run_bind_ok (Py.run_read wa), if_pos h]
  rfl

/-- A full deque does not change, whether the value gets to the file or not. -/
theorem append_full (h : ¬ wa.d.length < writeBufferSize) (dumps : α → Option Bytes)
    (fault : Option DiskFault) (value : α) :
    (append writeBufferSize dumps fault value wa).2.d = wa.d := by
  have hkeeps : Py.Keeps (InvImage Eq d) (do
      let saved ← saveToDisk dumps fault value
      let (pos, written) ← Py.ofOption .typeError saved
      Py.modify fun wa => { wa with onDisk := wa.onDisk.set pos written }) := by
    refine Py.keeps_bind (saveToDisk_d dumps fault value) fun saved => ?_
    exact Py.keeps_bind (Py.keeps_ofOption _ _) fun _ => Py.keeps_modify fun _ => rfl
  unfold append insert
  rw [Py.run_bind_ok (Py.run_read wa), if_neg h]
  exact (hkeeps wa).symm

end WriteAhead

/-! ## Calls -/

inductive WalCall (α : Type) where
  | append (value : α) (fault : Option DiskFault)
  | popleft
  deriving DecidableEq, Repr

/-- A queue, and what happened to its values.  A value is told from the others by the number of the
    call that appended it. -/
structure Journal (α : Type) where
  queue : WriteAhead (Nat × α)
  calls : Nat
  /-- The calls of `popleft` since the first value that went to the file. -/
  late : Option Nat
  /-- `none` stands for the `None` of `read_fom_disk`. -/
  events : List (QueueEvent (Option (Nat × α)))

def Journal.start {α : Type} (initialSize : Nat) : Journal α := ⟨.new initialSize, 0, none, []⟩

variable {α : Type}

/-- A call.  An `append` that raises has put nothing in. -/
def WalCall.exec (writeBufferSize : Nat) (dumps : α → Option Bytes) :
    WalCall α → Journal α → Journal α
  | .append value fault, s =>
    match s.queue.append writeBufferSize (fun e => dumps e.2) fault (s.calls, value) with
    | (.ok _, queue) =>
      { queue := queue
        calls := s.calls + 1
        late := if s.queue.d.length < writeBufferSize then s.late else some (s.late.getD 0)
        events := s.events ++ [.put (some (s.calls, value))] }
    | (.error _, queue) => { s with queue := queue, calls := s.calls + 1 }
  | .popleft, s =>
    match s.queue.popleft with
    | (.ok value, queue) =>
      { s with queue := queue, late := s.late.map (· + 1), events := s.events ++ [.taken value] }
    | (.error _, queue) =>
      { s with queue := queue, late := s.late.map (· + 1), events := s.events ++ [.empty] }

def writeAheads (writeBufferSize : Nat) (dumps : α → Option Bytes) : System (Journal α) (WalCall α) :=
  .ofFun (WalCall.exec writeBufferSize dumps)

/-- The law of the queue: the values came out in their order, each once, and `popleft` raised only
when none was left. -/
def Journal.IsFifo (s : Journal α) : Prop := ∃ q, (fifo _).Run [] s.events q

/-- What is taken was in the deque when it became full. -/
def WalCall.early (writeBufferSize : Nat) (s : Journal α) : WalCall α → Prop
  | .append _ _ => True
  | .popleft => ∀ n, s.late = some n → n < writeBufferSize

/-! ## Where the values are -/

/-- The values of the queue are in the deque; or, `n` calls of `popleft` after the deque was full, the
    queue begins with those that are left of the full deque, and then the first value in the file. -/
inductive Spread (writeBufferSize : Nat) (d : List (Nat × α)) (calls : Nat) :
    Option Nat → List (Option (Nat × α)) → Prop
  | inMemory (room : d.length ≤ writeBufferSize) : Spread writeBufferSize d calls none (d.map some)
  | overflowed {n : Nat} {old new : List (Nat × α)} {first : Nat × α}
      {rest : List (Option (Nat × α))} (parts : d = old ++ new)
      (left : old.length + n = writeBufferSize) (known : first.1 < calls)
      (later : ∀ e ∈ new, first.1 < e.1) :
      Spread writeBufferSize d calls (some n) (old.map some ++ some first :: rest)

namespace Spread

variable {writeBufferSize calls : Nat} {d : List (Nat × α)} {e : Nat × α} {late : Option Nat}
  {q : List (Option (Nat × α))}

theorem refuse (h : Spread writeBufferSize d calls late q) :
    Spread writeBufferSize d (calls + 1) late q := by
  cases h with
  | inMemory room => exact .inMemory room
  | overflowed parts left known later => exact .overflowed parts left (Nat.lt_succ_of_lt known) later

theorem keep (h : Spread writeBufferSize d calls late q) (hroom : d.length < writeBufferSize)
    (value : α) : Spread writeBufferSize (d ++ [(calls, value)]) (calls + 1) late
      (q ++ [some (calls, value)]) := by
  cases h with
  | inMemory room =>
    have hmap : d.map some ++ [some (calls, value)] = (d ++ [(calls, value)]).map some := by
      rw [List.map_append, List.map_singleton]
    rw [hmap]
    refine .inMemory ?_
    rw [List.length_append, List.length_singleton]
    exact hroom
  | @overflowed n old new first rest parts left known later =>
    rw [List.append_assoc, List.cons_append]
    refine .overflowed (by rw [parts, List.append_assoc]) left (Nat.lt_succ_of_lt known) fun e he => ?_
    rw [List.mem_append, List.mem_singleton] at he
    rcases he with he | rfl
    · exact later e he
    · exact known

/-- The first value that goes to the file finds a full deque, and none of it is taken yet. -/
theorem spill (h : Spread writeBufferSize d calls late q) (hfull : ¬ d.length < writeBufferSize)
    (value : α) : Spread writeBufferSize d (calls + 1) (some (late.getD 0))
      (q ++ [some (calls, value)]) := by
  cases h with
  | inMemory room =>
    refine .overflowed (List.append_nil d).symm ?_ (Nat.lt_succ_self calls) (by simp)
    exact Nat.le_antisymm room (Nat.le_of_not_lt hfull)
  | @overflowed n old new first rest parts left known later =>
    rw [List.append_assoc, List.cons_append]
    exact .overflowed parts left (Nat.lt_succ_of_lt known) later

theorem take (h : Spread writeBufferSize (e :: d) calls late q)
    (hearly : ∀ n, late = some n → n < writeBufferSize) :
    ∃ q', q = some e :: q' ∧ Spread writeBufferSize d calls (late.map (· + 1)) q' := by
  cases h with
  | inMemory room => exact ⟨d.map some, rfl, .inMemory (Nat.le_of_succ_le room)⟩
  | @overflowed n old new first rest parts left known later =>
    have hn := hearly n rfl
    cases old with
    | nil =>
      rw [List.length_nil, Nat.zero_add] at left
      exact absurd left (Nat.ne_of_lt hn)
    | cons e' old =>
      rw [List.cons_append, List.cons.injEq] at parts
      obtain ⟨rfl, parts⟩ := parts
      have hleft : old.length + (n + 1) = writeBufferSize := by
        rw [← left, List.length_cons]
        omega
      exact ⟨old.map some ++ some first :: rest, rfl, .overflowed parts hleft known later⟩

theorem empty (h : Spread writeBufferSize [] calls late q)
    (hearly : ∀ n, late = some n → n < writeBufferSize) : q = [] ∧ late = none := by
  cases h with
  | inMemory room => exact ⟨rfl, rfl⟩
  | @overflowed n old new first rest parts left known later =>
    obtain ⟨rfl, rfl⟩ := List.append_eq_nil_iff.mp parts.symm
    rw [List.length_nil, Nat.zero_add] at left
    exact absurd left (Nat.ne_of_lt (hearly n rfl))

/-- Once the full deque is taken, the queue begins with a value that is older than those in the
deque. -/
theorem passed {n : Nat} (h : Spread writeBufferSize d calls (some n) q)
    (hlate : ¬ n < writeBufferSize) :
    ∃ first rest, q = some first :: rest ∧ ∀ e ∈ d, first.1 < e.1 := by
  cases h with
  | @overflowed _ old new first rest parts left known later =>
    have hold : old = [] := List.eq_nil_of_length_eq_zero (by omega)
    subst hold
    exact ⟨first, rest, rfl, parts ▸ later⟩

end Spread

/-! ## Runs -/

/-- The history is one of a queue that holds `q`. -/
structure Journal.Tracks (writeBufferSize : Nat) (s : Journal α) (q : List (Option (Nat × α))) :
    Prop where
  run : (fifo _).Run [] s.events q
  spread : Spread writeBufferSize s.queue.d s.calls s.late q

section

variable {writeBufferSize : Nat} {dumps : α → Option Bytes} {s s' : Journal α}
  {q : List (Option (Nat × α))}

theorem Journal.tracks_start (writeBufferSize initialSize : Nat) :
    (Journal.start initialSize : Journal α).Tracks writeBufferSize [] :=
  ⟨.nil _, .inMemory (Nat.zero_le _)⟩

/-- A call that comes early enough is one of a queue. -/
theorem Journal.Tracks.step (ht : s.Tracks writeBufferSize q) {c : WalCall α}
    (hearly : c.early writeBufferSize s) :
    ∃ q', (c.exec writeBufferSize dumps s).Tracks writeBufferSize q' := by
  cases c with
  | append value fault =>
    rw [WalCall.exec]
    by_cases hroom : s.queue.d.length < writeBufferSize
    · rw [WriteAhead.append_kept hroom]
      dsimp only
      rw [if_pos hroom]
      exact ⟨_, ht.run.append (.single (.put q _)), ht.spread.keep hroom value⟩
    · have hd := WriteAhead.append_full hroom (fun e => dumps e.2) fault (s.calls, value)
      split
      · rename_i queue hqueue
        rw [hqueue] at hd
        dsimp only at hd ⊢
        rw [if_neg hroom]
        exact ⟨_, ht.run.append (.single (.put q _)), hd ▸ ht.spread.spill hroom value⟩
      · rename_i queue hqueue
        rw [hqueue] at hd
        exact ⟨q, ht.run, hd ▸ ht.spread.refuse⟩
  | popleft =>
    rw [WalCall.exec, WriteAhead.popleft_eq]
    have hspread := ht.spread
    cases hd : s.queue.d with
    | nil =>
      rw [hd] at hspread
      obtain ⟨rfl, hlate⟩ := hspread.empty hearly
      refine ⟨[], ht.run.append (.single .empty), ?_⟩
      dsimp only
      rw [hlate, hd]
      exact .inMemory (Nat.zero_le _)
    | cons e d =>
      rw [hd] at hspread
      obtain ⟨q', rfl, hspread'⟩ := hspread.take hearly
      exact ⟨q', ht.run.append (.single (.taken (some e) q')), hspread'⟩

/-- **A `popleft` that comes too late** takes a younger value, or raises with values left. -/
theorem Journal.Tracks.tooLate (ht : s.Tracks writeBufferSize q) {c : WalCall α}
    (hlate : ¬ c.early writeBufferSize s) : ¬ (c.exec writeBufferSize dumps s).IsFifo := by
  cases c with
  | append value fault => exact absurd trivial hlate
  | popleft =>
    obtain ⟨n, hn, hpast⟩ : ∃ n, s.late = some n ∧ ¬ n < writeBufferSize := by
      simpa [WalCall.early] using hlate
    have hspread := ht.spread
    rw [hn] at hspread
    obtain ⟨first, rest, rfl, holder⟩ := hspread.passed hpast
    -- the history up to the call leaves `first` at the front
    have hfront : ∀ {e : QueueEvent (Option (Nat × α))},
        (∃ q', (fifo _).Run [] (s.events ++ [e]) q') → ∃ q', FifoStep (some first :: rest) e q' := by
      rintro e ⟨q', hrun⟩
      obtain ⟨q₁, hrun₁, hlast⟩ := hrun.split
      rw [fifo_unique hrun₁ ht.run] at hlast
      cases hlast with
      | cons hstep _ => exact ⟨_, hstep⟩
    intro hfifo
    rw [WalCall.exec, WriteAhead.popleft_eq] at hfifo
    cases hd : s.queue.d with
    | nil =>
      rw [hd] at hfifo
      obtain ⟨q', hstep⟩ := hfront hfifo
      cases hstep
    | cons e d =>
      rw [hd] at hfifo
      obtain ⟨q', hstep⟩ := hfront hfifo
      cases hstep
      exact Nat.lt_irrefl _ (holder first (hd ▸ List.mem_cons_self))

theorem WalCall.events_prefix (c : WalCall α) (s : Journal α) :
    s.events <+: (c.exec writeBufferSize dumps s).events := by
  cases c with
  | append value fault =>
    rw [WalCall.exec]
    split
    · exact List.prefix_append _ _
    · exact List.prefix_rfl
  | popleft =>
    rw [WalCall.exec]
    split <;> exact List.prefix_append _ _

/-- What was no run of a queue does not become one. -/
theorem Journal.IsFifo.of_run {cs : List (WalCall α)}
    (hrun : (writeAheads writeBufferSize dumps).Run s cs s') (h : s'.IsFifo) : s.IsFifo := by
  have hgrow : s.events <+: s'.events :=
    hrun.invariant (I := fun t => s.events <+: t.events)
      (fun t c t' ht hstep => by
        cases hstep
        exact ht.trans (c.events_prefix t)) List.prefix_rfl
  obtain ⟨es, hes⟩ := hgrow
  obtain ⟨q, hq⟩ := h
  rw [← hes] at hq
  obtain ⟨q₁, hq₁, _⟩ := hq.split
  exact ⟨q₁, hq₁⟩

theorem Journal.Tracks.run_iff (ht : s.Tracks writeBufferSize q) {cs : List (WalCall α)}
    (hrun : (writeAheads writeBufferSize dumps).Run s cs s') :
    s'.IsFifo ↔ ((writeAheads writeBufferSize dumps).meeting fun s c =>
      WalCall.early writeBufferSize s c).Run s cs s' := by
  induction hrun generalizing q with
  | nil s => exact ⟨fun _ => .nil s, fun _ => ⟨q, ht.run⟩⟩
  | @cons s s₁ s' c cs hstep hrest ih =>
    cases hstep
    by_cases hearly : c.early writeBufferSize s
    · obtain ⟨q₁, ht₁⟩ := ht.step hearly
      rw [ih ht₁]
      refine ⟨fun h => .cons ⟨rfl, hearly⟩ h, fun h => ?_⟩
      cases h with
      | cons hs hrest =>
        obtain ⟨rfl, _⟩ := hs
        exact hrest
    · constructor
      · exact fun h => absurd (h.of_run hrest) (ht.tooLate hearly)
      · intro h
        cases h with
        | cons hs _ => exact absurd hs.2 hearly

end

/-- **The write-ahead queue is a queue in a run exactly if no value has to come back from the file**:
after the first value that goes there, `popleft` is called for the values of the full deque only. -/
theorem write_ahead_fifo_iff (writeBufferSize initialSize : Nat) (dumps : α → Option Bytes)
    {cs : List (WalCall α)} {s : Journal α}
    (hrun : (writeAheads writeBufferSize dumps).Run (.start initialSize) cs s) :
    s.IsFifo ↔ ((writeAheads writeBufferSize dumps).meeting fun s c =>
      WalCall.early writeBufferSize s c).Run (.start initialSize) cs s :=
  (Journal.tracks_start writeBufferSize initialSize).run_iff hrun

/-- `pickle.dumps` of a small number. -/
def pickledByte (n : UInt8) : Option Bytes := some [0x80, 4, 0x4B, n, 0x2E]

/-- One place: 8 goes to the file, and only 7 is taken. -/
theorem write_ahead_fifo_iff_sample :
    (System.after (WalCall.exec 1 pickledByte) (.start 1073741824)
      [.append 7 none, .append 8 none, .popleft]).IsFifo := by
  refine (write_ahead_fifo_iff 1 1073741824 pickledByte (System.run_after _ _ _)).mpr ?_
  refine .cons ⟨rfl, trivial⟩ (.cons ⟨rfl, trivial⟩ (.cons ⟨rfl, fun n hn => ?_⟩ (.nil _)))
  cases hn
  decide

/-- **A value stays in the file**: 8 is there when `popleft` raises, and 9 comes out after it. -/
theorem overflow_passed_over :
    ∃ s : Journal UInt8,
      (writeAheads 1 pickledByte).Run (.start 1073741824)
        [.append 7 none, .append 8 none, .popleft, .popleft, .append 9 none, .popleft] s ∧
      s.events = [.put (some (0, 7)), .put (some (1, 8)), .taken (some (0, 7)), .empty,
        .put (some (2, 9)), .taken (some (2, 9))] ∧
      ¬ s.IsFifo := by
  refine ⟨_, System.run_after _ _ _, rfl, fun ⟨q, hrun⟩ => ?_⟩
  have hprefix : [some ((0 : Nat), (7 : UInt8)), some (2, 9)] <+:
      [some (0, 7), some (1, 8), some (2, 9)] := takes_prefix hrun
  revert hprefix
  decide

end VeratyFS
