import VeratyFS.Datastructures
import VeratyFS.Lib.Dict
import VeratyFS.Lib.Py

/-!
# Pickle files (`compressed_pickle`, `decompress_pickle`, `persist_data`)

A file is copied to `path.bak`, emptied, and written.  A dictionary loses its items with a false
value before that; nothing reads the copy back.

* `PyValue`, `Pickling` — the values; `pickle` and `bz2`, and what is relied on of them.
* `PersistFault` — where the operating system fails, and what is in the file then.
* `compressedPickle`, `decompressPickle`, `persistData` — as in the source.
* `backUp_missing`, `backUp_deferred`, `backUp_copied` — the outcomes of the backup; `Dumps` — those of
  the write.
* `compressed_pickle_law` — what a call leaves, whichever way it ends.
* `persistData_recoverable` — the same for the two files of `persist_data`.
-/

set_option autoImplicit false

namespace VeratyFS

open Pylib

/-! ## Values -/

/-- Python values; `object` is a value of any other type. -/
inductive PyValue (O : Type) where
  | none
  | bool (b : Bool)
  | int (i : Int)
  | str (s : String)
  | bytes (b : Bytes)
  | list (l : List (PyValue O))
  | tuple (l : List (PyValue O))
  | dict (items : List (PyValue O × PyValue O))
  | object (o : O)

namespace PyValue

variable {O : Type}

/-- `bool(v)`. -/
def truth (truthO : O → Bool) : PyValue O → Bool
  | .none => false
  | .bool b => b
  | .int i => i != 0
  | .str s => !s.isEmpty
  | .bytes b => !b.isEmpty
  | .list l => !l.isEmpty
  | .tuple l => !l.isEmpty
  | .dict items => !items.isEmpty
  | .object o => truthO o

/-- `n_data`. -/
def withoutFalse (truthO : O → Bool) : PyValue O → PyValue O
  | .dict items => .dict (items.filter fun e => e.2.truth truthO)
  | v => v

theorem withoutFalse_eq_self (truthO : O → Bool) (v : PyValue O) :
    v.withoutFalse truthO = v ↔
      ∀ items, v = .dict items → ∀ e ∈ items, e.2.truth truthO = true := by
  cases v with
  | dict items =>
    rw [withoutFalse, PyValue.dict.injEq, List.filter_eq_self]
    exact ⟨fun h items' heq => PyValue.dict.inj heq ▸ h, fun h => h items rfl⟩
  | none | bool | int | str | bytes | list | tuple | object =>
    exact ⟨fun _ _ heq => (by cases heq), fun _ => rfl⟩

end PyValue

inductive PickleError where
  | runtimeError
  | recursionError
  | notImplementedError
  | osError
  | eofError
  | attributeError
  | typeError
  | memoryError
  | picklingError
  | unpicklingError
  deriving DecidableEq, Repr

/-- `RuntimeError` and its subclasses. -/
def PickleError.isRuntimeError : PickleError → Bool
  | .runtimeError => true
  | .recursionError => true
  | .notImplementedError => true
  | _ => false

/-- `pickle` and `bz2`. -/
structure Pickling (O : Type) where
  truth : O → Bool
  /-- What is written, and the exception that is raised after it. -/
  dump : PyValue O → Bytes × Option PickleError
  load : Bytes → Except PickleError (PyValue O)
  compress : Bytes → Bytes
  decompress : Bytes → Except PickleError Bytes

/-- What was pickled without an exception is loaded as it was, and `bz2` loses nothing. -/
structure Pickling.Lawful {O : Type} (P : Pickling O) : Prop where
  load_dump : ∀ v b, P.dump v = (b, none) → P.load b = .ok v
  decompress_compress : ∀ b, P.decompress (P.compress b) = .ok b

/-! ## Files -/

/-- The contents of the files, by path. -/
abbrev Files := Dict Bytes Bytes

/-- `path+'.bak'`. -/
def bak (path : Bytes) : Bytes := path ++ [46, 98, 97, 107]

theorem bak_ne (path : Bytes) : bak path ≠ path := by
  intro h
  have hlength := congrArg List.length h
  simp [bak] at hlength

/-- `copyfile` fails, and the copy is as it was or holds `left`; `open` fails; the file is open, and
    writing or closing it fails and leaves `left` in it. -/
inductive PersistFault where
  | copying (left : Option Bytes)
  | opening (e : PickleError)
  | writing (e : PickleError) (left : Bytes)
  deriving DecidableEq, Repr

variable {O : Type}

def copyfile (fault : Option PersistFault) (src dst : Bytes) : Py PickleError Files Unit := do
  let files ← Py.read
  let content ← Py.ofOption .osError (files.get? src)
  match fault with
  | some (.copying left) =>
    Py.modify fun files => left.elim files (files.set dst)
    Py.raise .osError
  | _ => Py.modify fun files => files.set dst content

/-- The copy of a file that is there; `false` is the `return False`. -/
def backUp (fault : Option PersistFault) (path : Bytes) : Py PickleError Files Bool := do
  let files ← Py.read
  if files.contains path then
    Py.attempt (do copyfile fault path (bak path); return true) fun _ => return false
  else
    return true

/-- The `with` block: `open` empties the file, and `encode` is what the file object does to the bytes. -/
def dumpTo (P : Pickling O) (fault : Option PersistFault) (encode : Bytes → Bytes) (path : Bytes)
    (nData : PyValue O) : Py PickleError Files (Option Bool) :=
  match fault with
  | some (.opening e) => Py.raise e
  | some (.writing e left) => do
    Py.modify fun files => files.set path []
    Py.modify fun files => files.set path left
    Py.raise e
  | _ => do
    Py.modify fun files => files.set path []
    Py.modify fun files => files.set path (encode (P.dump nData).1)
    match (P.dump nData).2 with
    | some e => Py.raise e
    | none => return some true

/-- `except RuntimeError: return False`. -/
def onRuntimeError (e : PickleError) : Py PickleError Files (Option Bool) :=
  if e.isRuntimeError then return some false else Py.raise e

/-- The result is `None` for other formats. -/
def compressedPickle (P : Pickling O) (fault : Option PersistFault) (path : Bytes)
    (data : PyValue O) (format : Int) : Py PickleError Files (Option Bool) := do
  let ready ← backUp fault path
  if ready = false then
    return some false
  else if format = 1 then
    Py.attempt (dumpTo P fault P.compress path (data.withoutFalse P.truth)) onRuntimeError
  else if format = 2 then
    Py.raise .notImplementedError
  else if format = 3 then
    Py.raise .notImplementedError
  else if format = 4 then
    Py.attempt (dumpTo P fault id path (data.withoutFalse P.truth)) onRuntimeError
  else
    return none

/-- `open(path, 'rb')`, read to the end. -/
def openRead (path : Bytes) (files : Files) : Except PickleError Bytes :=
  match files.get? path with
  | some b => .ok b
  | none => .error .osError

/-- The inner `none` is the `None` for other formats. -/
def decompressPickle (P : Pickling O) (path : Bytes) (format : Int) (files : Files) :
    Except PickleError (Option (PyValue O)) :=
  if format = 1 then do
    let raw ← openRead path files
    let b ← P.decompress raw
    let v ← P.load b
    return some v
  else if format = 2 then
    .error .notImplementedError
  else if format = 3 then
    .error .notImplementedError
  else if format = 4 then do
    let raw ← openRead path files
    let v ← P.load raw
    return some v
  else
    return none

/-! ## The backup -/

section

variable {fault : Option PersistFault} {path old : Bytes} {files : Files}

theorem backUp_missing (hpath : files.get? path = none) (fault : Option PersistFault) :
    backUp fault path files = (.ok true, files) := by
  have hcontains : files.contains path = false := (Dict.contains_eq_false _).mpr hpath
  unfold backUp
  rw [Py.run_bind_ok (Py.run_read files), if_neg (Bool.not_eq_true _ ▸ hcontains)]
  rfl

theorem backUp_deferred (hpath : files.get? path = some old) (left : Option Bytes) :
    backUp (some (.copying left)) path files =
      (.ok false, left.elim files (files.set (bak path))) := by
  have hcontains : files.contains path = true := (Dict.contains_iff _).mpr ⟨old, hpath⟩
  have hcopy : copyfile (some (.copying left)) path (bak path) files =
      (.error .osError, left.elim files (files.set (bak path))) := by
    unfold copyfile
    rw [Py.run_bind_ok (Py.run_read files), hpath]
    rfl
  unfold backUp
  rw [Py.run_bind_ok (Py.run_read files), if_pos hcontains]
  exact Py.run_attempt_error (Py.run_bind_error hcopy)

theorem backUp_copied (hpath : files.get? path = some old)
    (hfault : ∀ left, fault ≠ some (.copying left)) :
    backUp fault path files = (.ok true, files.set (bak path) old) := by
  have hcontains : files.contains path = true := (Dict.contains_iff _).mpr ⟨old, hpath⟩
  have hcopy : copyfile fault path (bak path) files = (.ok (), files.set (bak path) old) := by
    unfold copyfile
    rw [Py.run_bind_ok (Py.run_read files), hpath]
    split
    · rename_i left
      exact absurd rfl (hfault left)
    · rfl
  unfold backUp
  rw [Py.run_bind_ok (Py.run_read files), if_pos hcontains]
  exact Py.run_attempt_ok (Py.run_bind_ok hcopy)

end

/-! ## The write -/

/-- What the write does to the files, and what its result says. -/
structure Dumps (P : Pickling O) (fault : Option PersistFault) (encode : Bytes → Bytes) (path : Bytes)
    (nData : PyValue O) (files : Files) (r : Except PickleError (Option Bool)) (files' : Files) :
    Prop where
  complete : r = .ok (some true) →
    (P.dump nData).2 = none ∧ files'.get? path = some (encode (P.dump nData).1)
  unopened : ∀ e, fault = some (.opening e) → files' = files
  others : ∀ p, p ≠ path → files'.get? p = files.get? p

section

variable {P : Pickling O} {fault : Option PersistFault} {encode : Bytes → Bytes} {path : Bytes}
  {nData : PyValue O} {files files' : Files} {e : PickleError}

/-- Without a fault the bytes are written, whether `dump` raises after them or not. -/
theorem dumpTo_run (hopen : ∀ e, fault ≠ some (.opening e))
    (hwrite : ∀ e left, fault ≠ some (.writing e left)) :
    dumpTo P fault encode path nData files =
      (match (P.dump nData).2 with
        | some e => .error e
        | none => .ok (some true),
      (files.set path []).set path (encode (P.dump nData).1)) := by
  unfold dumpTo
  split
  · rename_i e
    exact absurd rfl (hopen e)
  · rename_i e left
    exact absurd rfl (hwrite e left)
  · rw [Py.run_bind_ok (Py.run_modify _ _), Py.run_bind_ok (Py.run_modify _ _)]
    cases (P.dump nData).2 <;> rfl

theorem onRuntimeError_run (e : PickleError) (files : Files) :
    (onRuntimeError e files).1 ≠ .ok (some true) ∧ (onRuntimeError e files).2 = files := by
  unfold onRuntimeError
  split <;> exact ⟨nofun, rfl⟩

theorem Dumps.of_error (hrun : dumpTo P fault encode path nData files = (.error e, files'))
    (hunopened : ∀ e, fault = some (.opening e) → files' = files)
    (hothers : ∀ p, p ≠ path → files'.get? p = files.get? p) {r : Except PickleError (Option Bool)}
    {files'' : Files}
    (h : Py.attempt (dumpTo P fault encode path nData) onRuntimeError files = (r, files'')) :
    Dumps P fault encode path nData files r files'' := by
  rw [Py.run_attempt_error hrun] at h
  obtain ⟨hresult, hfiles⟩ := onRuntimeError_run e files'
  rw [h] at hresult hfiles
  dsimp only at hresult hfiles
  subst hfiles
  exact ⟨fun hr => absurd hr hresult, hunopened, hothers⟩

theorem get?_emptied (a b : Bytes) (files : Files) {p : Bytes} (hp : p ≠ path) :
    ((files.set path a).set path b).get? p = files.get? p := by
  rw [Dict.get?_set_ne _ _ (Ne.symm hp), Dict.get?_set_ne _ _ (Ne.symm hp)]

theorem Dumps.of_dump (hopen : ∀ e, fault ≠ some (.opening e))
    (hwrite : ∀ e left, fault ≠ some (.writing e left)) {r : Except PickleError (Option Bool)}
    (h : Py.attempt (dumpTo P fault encode path nData) onRuntimeError files = (r, files')) :
    Dumps P fault encode path nData files r files' := by
  have hrun : dumpTo P fault encode path nData files = _ := dumpTo_run hopen hwrite
  have hunopened : ∀ {files' : Files}, ∀ e, fault = some (.opening e) → files' = files :=
    fun e he => absurd he (hopen e)
  cases hdump : (P.dump nData).2 with
  | some e =>
    rw [hdump] at hrun
    exact Dumps.of_error hrun hunopened (fun p hp => get?_emptied _ _ files hp) h
  | none =>
    rw [hdump] at hrun
    rw [Py.run_attempt_ok hrun] at h
    obtain ⟨rfl, rfl⟩ := Prod.mk.inj h
    exact ⟨fun _ => ⟨hdump, Dict.get?_set_self _ _ _⟩, hunopened, fun p hp => get?_emptied _ _ files hp⟩

theorem Dumps.of_run {r : Except PickleError (Option Bool)}
    (h : Py.attempt (dumpTo P fault encode path nData) onRuntimeError files = (r, files')) :
    Dumps P fault encode path nData files r files' := by
  cases fault with
  | none => exact Dumps.of_dump (fun _ he => (by cases he)) (fun _ _ he => (by cases he)) h
  | some f =>
    cases f with
    | copying left =>
      exact Dumps.of_dump (fun _ he => (by cases he)) (fun _ _ he => (by cases he)) h
    | opening e => exact Dumps.of_error rfl (fun _ _ => rfl) (fun _ _ => rfl) h
    | writing e left =>
      exact Dumps.of_error rfl (fun _ he => (by cases he)) (fun p hp => get?_emptied [] left files hp) h

end

/-! ## A call -/

/-- What `compressed_pickle` leaves. -/
structure PickleLaw (P : Pickling O) (fault : Option PersistFault) (path : Bytes) (data : PyValue O)
    (format : Int) (files : Files) (r : Except PickleError (Option Bool)) (files' : Files) : Prop where
  /-- After `True` the value is loaded, a dictionary without its false values. -/
  loads : r = .ok (some true) →
    decompressPickle P path format files' = .ok (some (data.withoutFalse P.truth))
  equal : r = .ok (some true) → (decompressPickle P path format files' = .ok (some data) ↔
    ∀ items, data = .dict items → ∀ e ∈ items, e.2.truth P.truth = true)
  /-- Without a backup nothing is written. -/
  refused : ∀ left, fault = some (.copying left) → files.contains path = true →
    r = .ok (some false) ∧ files'.get? path = files.get? path
  unopened : ∀ e, fault = some (.opening e) → files'.get? path = files.get? path
  /-- However the call ends, the previous contents are in the backup. -/
  saved : ∀ old, files.get? path = some old → (∀ left, fault ≠ some (.copying left)) →
    files'.get? (bak path) = some old
  others : ∀ p, p ≠ path → p ≠ bak path → files'.get? p = files.get? p

section

variable {P : Pickling O} {fault : Option PersistFault} {path : Bytes} {data : PyValue O}
  {format : Int} {files files' : Files} {r : Except PickleError (Option Bool)}

/-- What the file object of a format does to the bytes. -/
def Pickling.encoding (P : Pickling O) (format : Int) : Bytes → Bytes :=
  if format = 1 then P.compress else id

/-- What was written without an exception is loaded. -/
theorem decompressPickle_of_dump (hP : P.Lawful) (hformat : format = 1 ∨ format = 4) {v : PyValue O}
    (hdump : (P.dump v).2 = none)
    (hpath : files.get? path = some (P.encoding format (P.dump v).1)) :
    decompressPickle P path format files = .ok (some v) := by
  have hload : P.load (P.dump v).1 = .ok v := hP.load_dump v _ (Prod.ext rfl hdump)
  have hread : openRead path files = .ok (P.encoding format (P.dump v).1) := by
    unfold openRead
    rw [hpath]
  unfold decompressPickle
  rw [hread]
  rcases hformat with rfl | rfl
  · change (do
      let b ← P.decompress (P.compress (P.dump v).1)
      let v ← P.load b
      return some v) = _
    rw [hP.decompress_compress]
    change (do let v ← P.load (P.dump v).1; return some v) = _
    rw [hload]
    rfl
  · change (do let v ← P.load (P.dump v).1; return some v) = _
    rw [hload]
    rfl

/-- A call that got past the backup. -/
theorem compressedPickle_ready (hformat : format = 1 ∨ format = 4) {copied : Files}
    (hready : backUp fault path files = (.ok true, copied)) :
    compressedPickle P fault path data format files =
      Py.attempt (dumpTo P fault (P.encoding format) path (data.withoutFalse P.truth))
        onRuntimeError copied := by
  unfold compressedPickle
  rw [Py.run_bind_ok hready]
  rcases hformat with rfl | rfl <;> rfl

theorem compressedPickle_deferred {copied : Files}
    (hready : backUp fault path files = (.ok false, copied)) :
    compressedPickle P fault path data format files = (.ok (some false), copied) := by
  unfold compressedPickle
  rw [Py.run_bind_ok hready]
  rfl

/-- What the write leaves, after a backup that changed the copy only. -/
theorem PickleLaw.of_dumps (hP : P.Lawful) (hformat : format = 1 ∨ format = 4) {copied : Files}
    (hcopied : ∀ p, p ≠ bak path → copied.get? p = files.get? p)
    (hold : ∀ old, files.get? path = some old → copied.get? (bak path) = some old)
    (hfault : ∀ left, fault = some (.copying left) → files.contains path = false)
    (h : Dumps P fault (P.encoding format) path (data.withoutFalse P.truth) copied r files') :
    PickleLaw P fault path data format files r files' where
  loads hr := by
    obtain ⟨hdump, hpath⟩ := h.complete hr
    exact decompressPickle_of_dump hP hformat hdump hpath
  equal hr := by
    obtain ⟨hdump, hpath⟩ := h.complete hr
    rw [decompressPickle_of_dump hP hformat hdump hpath, Except.ok.injEq, Option.some.injEq]
    exact data.withoutFalse_eq_self P.truth
  refused left hleft hcontains := by
    rw [hfault left hleft] at hcontains
    cases hcontains
  unopened e he := by
    rw [h.unopened e he, hcopied path (Ne.symm (bak_ne path))]
  saved old hpath _ := by
    rw [h.others _ (bak_ne path), hold old hpath]
  others p hp hbak := by
    rw [h.others p hp, hcopied p hbak]

theorem PickleLaw.of_run (hP : P.Lawful) (hformat : format = 1 ∨ format = 4)
    (h : compressedPickle P fault path data format files = (r, files')) :
    PickleLaw P fault path data format files r files' := by
  cases hpath : files.get? path with
  | none =>
    rw [compressedPickle_ready hformat (backUp_missing hpath fault)] at h
    refine .of_dumps hP hformat (fun _ _ => rfl) (fun old hold => ?_) (fun _ _ => ?_) (.of_run h)
    · rw [hpath] at hold
      cases hold
    · exact (Dict.contains_eq_false _).mpr hpath
  | some old =>
    by_cases hfault : ∃ left, fault = some (.copying left)
    · obtain ⟨left, rfl⟩ := hfault
      rw [compressedPickle_deferred (backUp_deferred hpath left)] at h
      obtain ⟨rfl, rfl⟩ := Prod.mk.inj h
      have hothers : ∀ p, p ≠ bak path →
          (left.elim files (files.set (bak path))).get? p = files.get? p := by
        intro p hp
        cases left with
        | none => rfl
        | some b => exact Dict.get?_set_ne _ _ (Ne.symm hp)
      exact {
        loads := fun hr => by cases hr
        equal := fun hr => by cases hr
        refused := fun _ _ _ => ⟨rfl, hothers path (Ne.symm (bak_ne path))⟩
        unopened := fun _ he => by cases he
        saved := fun _ _ hne => absurd rfl (hne left)
        others := fun p _ hbak => hothers p hbak }
    · have hne : ∀ left, fault ≠ some (.copying left) := fun left hl => hfault ⟨left, hl⟩
      rw [compressedPickle_ready hformat (backUp_copied hpath hne)] at h
      refine .of_dumps hP hformat (fun p hp => Dict.get?_set_ne _ _ (Ne.symm hp)) (fun old' hold => ?_)
        (fun left hl => absurd hl (hne left)) (.of_run h)
      rw [hpath] at hold
      cases hold
      exact Dict.get?_set_self _ _ _

end

/-- **What a call of `compressed_pickle` leaves**, whatever fails in it. -/
theorem compressed_pickle_law (P : Pickling O) (hP : P.Lawful) (fault : Option PersistFault)
    (path : Bytes) (data : PyValue O) {format : Int} (hformat : format = 1 ∨ format = 4)
    (files : Files) :
    let o := compressedPickle P fault path data format files
    PickleLaw P fault path data format files o.1 o.2 :=
  .of_run hP hformat rfl

/-- `pickle.dumps` of the dictionary with 2 under 1. -/
def pickledPair : Bytes :=
  [0x80, 4, 0x95, 8, 0, 0, 0, 0, 0, 0, 0, 0x7D, 0x94, 0x4B, 1, 0x4B, 2, 0x73, 0x2E]

/-- `pickle` on an empty dictionary and on `{1: 2}`; format 4 does not use `bz2`. -/
def samplePickling : Pickling Unit where
  truth _ := true
  dump
    | .dict [] => ([0x80, 4, 0x7D, 0x94, 0x2E], none)
    | .dict [(.int 1, .int 2)] => (pickledPair, none)
    | _ => ([], some .picklingError)
  load b :=
    if b = [0x80, 4, 0x7D, 0x94, 0x2E] then .ok (.dict [])
    else if b = pickledPair then .ok (.dict [(.int 1, .int 2)])
    else .error .unpicklingError
  compress := id
  decompress := .ok

theorem samplePickling_lawful : samplePickling.Lawful where
  load_dump v b h := by
    unfold samplePickling at h
    dsimp only at h
    split at h
    · cases h
      rfl
    · cases h
      rfl
    · cases h
  decompress_compress _ := rfl

/-- A file `gc` with an empty dictionary. -/
def sampleFiles : Files := Dict.empty.set [103, 99] [0x80, 4, 0x7D, 0x94, 0x2E]

theorem compressed_pickle_law_sample :
    let o := compressedPickle samplePickling none [103, 99] (.dict [(.int 1, .int 2)]) 4 sampleFiles
    o.1 = .ok (some true) ∧
      PickleLaw samplePickling none [103, 99] (.dict [(.int 1, .int 2)]) 4 sampleFiles o.1 o.2 :=
  ⟨rfl, compressed_pickle_law samplePickling samplePickling_lawful _ _ _ (.inr rfl) _⟩

/-- **What is lost**: `{1: 0}` comes back as an empty dictionary, and a write that fails after one byte
leaves this byte. -/
theorem pickle_loses :
    (∃ files', compressedPickle samplePickling none [103, 99] (.dict [(.int 1, .int 0)]) 4 .empty =
        (.ok (some true), files') ∧
      decompressPickle samplePickling [103, 99] 4 files' = .ok (some (.dict []))) ∧
    ∃ files', compressedPickle samplePickling (some (.writing .osError [0x80])) [103, 99]
        (.dict [(.int 1, .int 2)]) 4 sampleFiles = (.error .osError, files') ∧
      sampleFiles.get? [103, 99] = some [0x80, 4, 0x7D, 0x94, 0x2E] ∧
      files'.get? [103, 99] = some [0x80] :=
  ⟨⟨_, rfl, rfl⟩, _, rfl, rfl, rfl⟩

/-! ## Both files -/

/-- The files, and the messages that were put into `stat_msg_queue`. -/
structure Persistence where
  files : Files
  messages : List String

/-- `if not compressed_pickle(path, data): stat_msg_queue.put(message)`; `queue` says whether there is
    a `stat_msg_queue`. -/
def persistFile (P : Pickling O) (fault : Option PersistFault) (queue : Bool) (path : Bytes)
    (data : PyValue O) (message : String) : Py PickleError Persistence Unit := do
  let done ← Py.zoom Persistence.files (fun files s => { s with files := files })
    (compressedPickle P fault path data 4)
  if done = some true then
    return ()
  else if queue then
    Py.modify fun s => { s with messages := s.messages ++ [message] }
  else
    Py.raise .attributeError

def persistData (P : Pickling O) (faults : Option PersistFault × Option PersistFault) (queue : Bool)
    (freeBlocksPath gcPath : Bytes) (freeBlocks GC : PyValue O) :
    Py PickleError Persistence Bool := do
  persistFile P faults.1 queue freeBlocksPath freeBlocks "DEBUG: Persistence of Free Blocks Deferred."
  persistFile P faults.2 queue gcPath GC "DEBUG: Persistence of GC Deferred."
  return true

/-- The file loads the new value, or the previous contents are still there, perhaps as the copy. -/
def Recoverable (P : Pickling O) (path : Bytes) (data : PyValue O) (files files' : Files) : Prop :=
  decompressPickle P path 4 files' = .ok (some (data.withoutFalse P.truth)) ∨
    ∀ old, files.get? path = some old →
      files'.get? path = some old ∨ files'.get? (bak path) = some old

section

variable {P : Pickling O} {fault : Option PersistFault} {path : Bytes} {data : PyValue O}
  {files files' : Files} {queue : Bool} {s s' : Persistence}

theorem PickleLaw.recoverable {r : Except PickleError (Option Bool)}
    (h : PickleLaw P fault path data 4 files r files') : Recoverable P path data files files' := by
  by_cases hr : r = .ok (some true)
  · exact .inl (h.loads hr)
  · refine .inr fun old hold => ?_
    by_cases hfault : ∃ left, fault = some (.copying left)
    · obtain ⟨left, hleft⟩ := hfault
      have hcontains : files.contains path = true := (Dict.contains_iff _).mpr ⟨old, hold⟩
      exact .inl ((h.refused left hleft hcontains).2.trans hold)
    · exact .inr (h.saved old hold fun left hl => hfault ⟨left, hl⟩)

/-- What happens to other files does not matter. -/
theorem Recoverable.congr {files₁ files₂ : Files} (h : Recoverable P path data files files')
    (hbefore : files₁.get? path = files.get? path)
    (hafter : ∀ p, p = path ∨ p = bak path → files₂.get? p = files'.get? p) :
    Recoverable P path data files₁ files₂ := by
  unfold Recoverable decompressPickle openRead at h ⊢
  rw [hbefore, hafter path (.inl rfl), hafter (bak path) (.inr rfl)]
  exact h

theorem Recoverable.refl (P : Pickling O) (path : Bytes) (data : PyValue O) (files : Files) :
    Recoverable P path data files files := .inr fun _ hold => .inl hold

/-- The messages are all that comes after the call. -/
theorem persistFile_files (message : String) :
    (persistFile P fault queue path data message s).2.files =
      (compressedPickle P fault path data 4 s.files).2 := by
  unfold persistFile
  cases hcall : compressedPickle P fault path data 4 s.files with
  | mk r files' =>
    cases r with
    | error e => rw [Py.run_bind_error (Py.run_zoom hcall)]
    | ok done =>
      rw [Py.run_bind_ok (Py.run_zoom hcall)]
      split
      · rfl
      · split <;> rfl

theorem persistFile_law (hP : P.Lawful) (message : String) :
    ∃ r, PickleLaw P fault path data 4 s.files r
      (persistFile P fault queue path data message s).2.files := by
  rw [persistFile_files]
  exact ⟨_, .of_run hP (.inr rfl) rfl⟩

end

/-- **However `persist_data` ends**, each of its files is recoverable. -/
theorem persistData_recoverable (P : Pickling O) (hP : P.Lawful)
    (faults : Option PersistFault × Option PersistFault) (queue : Bool) {freeBlocksPath gcPath : Bytes}
    (hpaths : ∀ p, p = freeBlocksPath ∨ p = bak freeBlocksPath → p ≠ gcPath ∧ p ≠ bak gcPath)
    (freeBlocks GC : PyValue O) (s : Persistence) :
    let s' := (persistData P faults queue freeBlocksPath gcPath freeBlocks GC s).2
    Recoverable P freeBlocksPath freeBlocks s.files s'.files ∧
      Recoverable P gcPath GC s.files s'.files := by
  have hpaths' : ∀ p, p = gcPath ∨ p = bak gcPath → p ≠ freeBlocksPath ∧ p ≠ bak freeBlocksPath := by
    rintro p (rfl | rfl)
    · exact ⟨fun hp => (hpaths _ (.inl rfl)).1 hp.symm, fun hp => (hpaths _ (.inr rfl)).1 hp.symm⟩
    · exact ⟨fun hp => (hpaths _ (.inl rfl)).2 hp.symm, fun hp => (hpaths _ (.inr rfl)).2 hp.symm⟩
  dsimp only
  unfold persistData
  generalize "DEBUG: Persistence of Free Blocks Deferred." = deferred
  obtain ⟨r₁, hfirst⟩ : ∃ r, PickleLaw P faults.1 freeBlocksPath freeBlocks 4 s.files r
      (persistFile P faults.1 queue freeBlocksPath freeBlocks deferred s).2.files :=
    persistFile_law hP deferred
  cases hrun : persistFile P faults.1 queue freeBlocksPath freeBlocks deferred s with
  | mk r s₁ =>
    rw [hrun] at hfirst
    have hkept : ∀ p, p = gcPath ∨ p = bak gcPath → s₁.files.get? p = s.files.get? p :=
      fun p hp => hfirst.others p (hpaths' p hp).1 (hpaths' p hp).2
    cases r with
    | error e =>
      rw [Py.run_bind_error hrun]
      exact ⟨hfirst.recoverable, (Recoverable.refl P gcPath GC s.files).congr rfl hkept⟩
    | ok _ =>
      rw [Py.run_bind_ok hrun]
      generalize "DEBUG: Persistence of GC Deferred." = deferred'
      obtain ⟨r₂, hsecond⟩ : ∃ r, PickleLaw P faults.2 gcPath GC 4 s₁.files r
          (persistFile P faults.2 queue gcPath GC deferred' s₁).2.files :=
        persistFile_law hP deferred'
      have hfiles : ((do persistFile P faults.2 queue gcPath GC deferred'; return true :
          Py PickleError Persistence Bool) s₁).2.files =
          (persistFile P faults.2 queue gcPath GC deferred' s₁).2.files := by
        cases hrun' : persistFile P faults.2 queue gcPath GC deferred' s₁ with
        | mk r s₂ =>
          cases r with
          | error e => rw [Py.run_bind_error hrun']
          | ok _ =>
            rw [Py.run_bind_ok hrun']
            rfl
      rw [hfiles]
      refine ⟨hfirst.recoverable.congr rfl fun p hp => ?_, hsecond.recoverable.congr ?_ fun _ _ => rfl⟩
      · exact hsecond.others p (hpaths p hp).1 (hpaths p hp).2
      · exact (hkept gcPath (.inl rfl)).symm

end VeratyFS
