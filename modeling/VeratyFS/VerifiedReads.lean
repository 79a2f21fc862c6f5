import VeratyFS.Availability

/-!
# Verified reads

`get_file_data` takes each block from a cache, the small-block database or a store, whatever they
hold, and counts it only if its bytes have its hash.

* `fetchBlock_not_leave` — the loop is never left early: the entry that is missing when the block is
  located was there before.
* `Verified` — one byte string for each block, with the block's hash.
* `getFileData_verified` — what a read that returns has returned.
-/

set_option autoImplicit false

namespace VeratyFS

open Pylib

variable {H : Type} [DecidableEq H] {cfg : Config} {P : Packages H}

theorem fetchUncached_not_leave (cfg : Config) (P : Packages H) (b : FileBlock H) (g : Globals H) :
    (fetchUncached cfg P b g).1 ≠ .ok .leave := by
  have hstored : ∀ e, (storedAt cfg P b e g).map Fetched.bytes ≠ .ok .leave := by
    intro e h
    cases hs : storedAt cfg P b e g <;> simp [hs, Except.map] at h
  cases he : g.hashTable.getItem? b.hash with
  | none => simp [fetchUncached_missing cfg P b he]
  | some e =>
    rw [fetchUncached_fst cfg P b he]
    split
    · split
      · simp
      · exact hstored e
      · simp
    · exact hstored e

/-- The `break` of the loop is never taken. -/
theorem fetchBlock_not_leave (cfg : Config) (P : Packages H) (b : FileBlock H) (g : Globals H) :
    (fetchBlock cfg P b g).1 ≠ .ok .leave := by
  intro h
  cases hc : cachedBlock b g with
  | mk r g₁ =>
    cases r with
    | error e =>
      have hrun : fetchBlock cfg P b g = (.error e, g₁) := Py.run_bind_error hc
      rw [hrun] at h
      cases h
    | ok o =>
      cases o with
      | some d =>
        have hrun : fetchBlock cfg P b g = (.ok (.bytes (some d)), g₁) := Py.run_bind_ok hc
        rw [hrun] at h
        cases h
      | none =>
        have hrun : fetchBlock cfg P b g = fetchUncached cfg P b g₁ := Py.run_bind_ok hc
        rw [hrun] at h
        exact fetchUncached_not_leave cfg P b g₁ h

/-- One byte string for each block, in order, each with the block's hash. -/
def Verified (P : Packages H) (bs : List (FileBlock H)) (data : Bytes) : Prop :=
  ∃ ds : List Bytes, List.Forall₂ (fun b d => P.xxh3_64 d = b.hash) bs ds ∧ data = ds.flatten

theorem readBlocks_verified (bs : List (FileBlock H)) {data out : Bytes} {g g' : Globals H}
    (h : readBlocks cfg P bs data g = (.ok out, g')) : ∃ rest, Verified P bs rest ∧ out = data ++ rest := by
  induction bs generalizing data g with
  | nil =>
    cases h
    exact ⟨[], ⟨[], .nil, rfl⟩, by simp⟩
  | cons b bs ih =>
    rw [readBlocks] at h
    cases hf : fetchBlock cfg P b g with
    | mk r g₁ =>
      cases r with
      | error e =>
        rw [Py.run_bind_error hf] at h
        cases h
      | ok o =>
        rw [Py.run_bind_ok hf] at h
        cases o with
        | leave => exact absurd (congrArg Prod.fst hf) (fetchBlock_not_leave cfg P b g)
        | bytes o =>
          cases o with
          | none => cases h
          | some d =>
            dsimp only at h
            split at h
            · rename_i hhash
              obtain ⟨rest, ⟨ds, hds, hrest⟩, hout⟩ := ih h
              refine ⟨d ++ rest, ⟨d :: ds, .cons hhash.symm hds, by simp [hrest]⟩, ?_⟩
              rw [hout, List.append_assoc]
            · cases h

/-- **A read returns verified bytes, or it raises**: for all blocks, slice bounds, caches, entries and
stores. -/
theorem getFileData_verified (blklst : List (FileBlock H)) (startBlock endBlock : Int)
    {g g' : Globals H} {data : Bytes}
    (h : getFileData cfg P blklst startBlock endBlock g = (.ok data, g')) :
    Verified P (slice blklst startBlock (endBlock + 1)) data := by
  obtain ⟨rest, hrest, hdata⟩ := readBlocks_verified _ h
  rw [hdata]
  exact hrest

/-- A cache entry of the wrong length over a block in a store. -/
def damagedCache : Globals Bytes :=
  let store : DataStore Bytes := .fresh 0
  let g : Globals Bytes := .fresh 1 Nat.one_pos [{ store with db := store.db.set [7] [7] }] []
  { g with
    readCache := g.readCache.set [7] [1, 2]
    hashTable := g.hashTable.setItem [7] { hash := [7], chunk := 0, size := 1, deflatedSize := 1 } }

theorem getFileData_verified_sample : Verified .plain (slice [⟨[7], 1, 1⟩] 0 (0 + 1)) [7] :=
  getFileData_verified [⟨[7], 1, 1⟩] 0 0
    (show getFileData .shipped .plain [⟨[7], 1, 1⟩] 0 0 damagedCache =
        (.ok [7], (getFileData .shipped .plain [⟨[7], 1, 1⟩] 0 0 damagedCache).2) from
      Prod.ext (by decide) rfl)

end VeratyFS
