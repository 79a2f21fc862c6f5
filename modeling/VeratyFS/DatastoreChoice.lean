import VeratyFS.Lib.Loops
import VeratyFS.Mirror

/-!
# The choice of a datastore

`pick_datastore` takes candidates off a list, in an order that `random.choice` picks, until one has
room.

* `pickRound` — a round of its `while` loop; `pickLoop_returns`: the loop ends with what `pickLoop`
  computes, because each round takes a candidate off.
* `pickDatastore_complete` — a store with room if there is one, whatever the choices; and
  `write_data` raises `ENOSPC` only when there is none, else it puts the record into a store with
  room and reports that store's chunk, unless it writes a replica.
* `replica_unrecorded` — a replica's store is not reported.
-/

set_option autoImplicit false

namespace VeratyFS

open Pylib

variable {H : Type}

/-! ## The loop -/

/-- The variables of the loop, and how often `random.choice` was asked. -/
structure PickState (H : Type) where
  round : Nat
  l : List Nat
  datastore : List (DataStore H)

def PickState.start (ds : List (DataStore H)) : PickState H := ⟨0, List.range ds.length, ds⟩

/-- A round of the loop: it ends with -1 when no candidate is left. -/
def pickRound (writeSpread : Bool) (env : PickEnv) (s : PickState H) :
    PickState H ⊕ (Option Nat × List (DataStore H)) :=
  match if writeSpread then s.l[env.choice s.round % s.l.length]? else s.l.head? with
  | none => .inr (none, s.datastore)
  | some store =>
    let ds := s.datastore.modify store fun d => { d with nextWritePosition := env.dirSize store }
    match ds[store]? with
    | none => .inr (none, ds)
    | some d =>
      if d.nextWritePosition < d.size then .inr (some store, ds)
      else .inl ⟨s.round + 1, s.l.erase store, ds⟩

/-- A candidate is one of the list, and there is none only if the list is empty. -/
theorem candidate_cases (writeSpread : Bool) (choice : Nat) (l : List Nat) :
    (l = [] ∧ (if writeSpread then l[choice % l.length]? else l.head?) = none) ∨
      ∃ store ∈ l, (if writeSpread then l[choice % l.length]? else l.head?) = some store := by
  cases l with
  | nil =>
    left
    cases writeSpread <;> simp
  | cons a l =>
    right
    cases writeSpread with
    | false => exact ⟨a, by simp, by simp⟩
    | true =>
      have hlt : choice % (a :: l).length < (a :: l).length := Nat.mod_lt _ (by simp)
      exact ⟨(a :: l)[choice % (a :: l).length], List.getElem_mem hlt, by simp⟩

/-- **The loop ends**: with as much fuel as there are candidates, `pickLoop` computes what it returns. -/
theorem pickLoop_returns (writeSpread : Bool) (env : PickEnv) (fuel round : Nat) (l : List Nat)
    (ds : List (DataStore H)) (hfuel : l.length ≤ fuel) :
    Loop.Returns (pickRound writeSpread env) ⟨round, l, ds⟩ (pickLoop writeSpread env fuel round l ds) := by
  induction fuel generalizing round l ds with
  | zero =>
    have hnil : l = [] := List.length_eq_zero_iff.mp (by omega)
    apply Loop.Returns.leave
    rw [hnil]
    cases writeSpread <;> rfl
  | succ fuel ih =>
    rcases candidate_cases writeSpread (env.choice round) l with ⟨_, hc⟩ | ⟨store, hmem, hc⟩
    · apply Loop.Returns.leave
      simp only [pickRound, pickLoop, hc]
    · cases hd : (ds.modify store fun d => { d with nextWritePosition := env.dirSize store })[store]? with
      | none =>
        apply Loop.Returns.leave
        simp only [pickRound, pickLoop, hc, hd]
      | some d =>
        by_cases hroom : d.nextWritePosition < d.size
        · apply Loop.Returns.leave
          simp only [pickRound, pickLoop, hc, hd, if_pos hroom]
        · have hlen : (l.erase store).length ≤ fuel := by
            rw [List.length_erase_of_mem hmem]
            omega
          apply (Loop.returns_iff_of_next (t := ⟨round + 1, l.erase store, _⟩) ?_).mpr
          · simp only [pickLoop, hc, hd, if_neg hroom]
            exact ih (round + 1) (l.erase store) _ hlen
          · simp only [pickRound, hc, hd, if_neg hroom]

/-! ## The store that is chosen -/

/-- A store of the second list is that of the first one, measured anew or not. -/
def Remeasured (ds ds' : List (DataStore H)) : Prop :=
  ∀ (j : Nat) (d' : DataStore H), ds'[j]? = some d' →
    ∃ d, ds[j]? = some d ∧ d'.chunk = d.chunk ∧ d'.size = d.size

theorem Remeasured.measure {ds ds' : List (DataStore H)} (h : Remeasured ds ds') (store n : Nat) :
    Remeasured ds (ds'.modify store fun d => { d with nextWritePosition := n }) := by
  intro j d' hd'
  rw [List.getElem?_modify] at hd'
  cases hj : ds'[j]? with
  | none => simp [hj] at hd'
  | some d₁ =>
    obtain ⟨d, hd, hchunk, hsize⟩ := h j d₁ hj
    rw [hj] at hd'
    refine ⟨d, hd, ?_⟩
    by_cases e : store = j
    · simp only [e, if_true, Option.map_eq_map, Option.map_some, Option.some.injEq] at hd'
      rw [← hd']
      exact ⟨hchunk, hsize⟩
    · simp only [if_neg e, Option.map_eq_map, Option.map_some, Option.some.injEq] at hd'
      rw [← hd']
      exact ⟨hchunk, hsize⟩

/-- What a choice tells: the store has room, and it was measured just now. -/
def ChoosesRoom (env : PickEnv) (ds : List (DataStore H)) (r : Option Nat × List (DataStore H)) : Prop :=
  ∀ j, r.1 = some j → ∃ d d', ds[j]? = some d ∧ env.dirSize j < d.size ∧
    r.2[j]? = some d' ∧ d'.chunk = d.chunk ∧ d'.nextWritePosition = env.dirSize j

/-- The store that was measured is in the list as it was measured. -/
theorem measured_position {ds : List (DataStore H)} {store n : Nat} {d : DataStore H}
    (h : (ds.modify store fun d => { d with nextWritePosition := n })[store]? = some d) :
    d.nextWritePosition = n := by
  rw [List.getElem?_modify] at h
  cases hs : ds[store]? with
  | none => simp [hs] at h
  | some d₁ =>
    rw [hs] at h
    simp only [if_true, Option.map_eq_map, Option.map_some, Option.some.injEq] at h
    rw [← h]

theorem pickDatastore_room (writeSpread : Bool) (env : PickEnv) (ds : List (DataStore H)) :
    ChoosesRoom env ds (pickDatastore writeSpread env ds) := by
  have hreturns := pickLoop_returns writeSpread env ds.length 0 (List.range ds.length) ds (by simp)
  refine hreturns.rule (I := fun s => Remeasured ds s.datastore) (fun s s' hs hb => ?_)
    (fun s r hs hb => ?_) (fun j d hd => ⟨d, hd, rfl, rfl⟩)
  · unfold pickRound at hb
    split at hb
    · cases hb
    · rename_i store _
      dsimp only at hb
      split at hb
      · cases hb
      · split at hb
        · cases hb
        · cases hb
          exact hs.measure store (env.dirSize store)
  · intro j hj
    unfold pickRound at hb
    split at hb
    · cases hb
      cases hj
    · rename_i store _
      dsimp only at hb
      split at hb
      · cases hb
        cases hj
      · rename_i d' hd'
        split at hb
        · rename_i hroom
          cases hb
          cases hj
          obtain ⟨d, hd, hchunk, hsize⟩ := hs.measure j (env.dirSize j) j d' hd'
          have hpos := measured_position hd'
          exact ⟨d, d', hd, by omega, hd', hchunk, hpos⟩
        · cases hb

/-- -1 exactly if every store is full. -/
theorem pickDatastore_eq_none (writeSpread : Bool) (env : PickEnv) (ds : List (DataStore H)) :
    (pickDatastore writeSpread env ds).1 = none ↔ ∀ j d, ds[j]? = some d → d.size ≤ env.dirSize j := by
  have hsome := pickDatastore_isSome writeSpread env ds
  constructor
  · intro hnone j d hd
    by_contra hroom
    have := hsome.mpr ⟨j, d, hd, by omega⟩
    rw [hnone] at this
    cases this
  · intro hfull
    by_contra hne
    obtain ⟨j, d, hd, hroom⟩ := hsome.mp (Option.isSome_iff_ne_none.mpr hne)
    have := hfull j d hd
    omega

/-! ## The write -/

variable [DecidableEq H]

/-- A write into a store with room. -/
theorem writeData_chosen (writeSpread : Bool) {env : PickEnv} (q : QueuedWrite H) (data : Bytes)
    (replica : Bool) {ds : List (DataStore H)} (hput : env.putRaises = false)
    (hroom : ∃ j d, ds[j]? = some d ∧ env.dirSize j < d.size) :
    ∃ j d ds', ds[j]? = some d ∧ env.dirSize j < d.size ∧ PutRecord ds ds' j q.hash data ∧
      writeData writeSpread env q data replica ds =
        (.ok (if replica then q else { q with chunk := d.chunk, block := env.dirSize j }), ds') := by
  obtain ⟨j, hj⟩ := Option.isSome_iff_exists.mp ((pickDatastore_isSome writeSpread env ds).mpr hroom)
  obtain ⟨d, d', hd, hlt, hd', hchunk, hpos⟩ := pickDatastore_room writeSpread env ds j hj
  have hsame : SameRecords ds (pickDatastore writeSpread env ds).2 :=
    (pickLoop_spec writeSpread env ds.length 0 (List.range ds.length) ds).1
  have hrecord := PutRecord.of_same hsame (putRecord_modify hd' q.hash data)
  refine ⟨j, d, _, hd, hlt, hrecord, ?_⟩
  have hpick : pickDatastore writeSpread env ds = (some j, (pickDatastore writeSpread env ds).2) :=
    Prod.ext hj rfl
  unfold writeData
  rw [hpick]
  dsimp only
  rw [hd']
  dsimp only
  rw [hput, hchunk, hpos]
  rfl

/-- Only full stores make a write raise `ENOSPC`. -/
theorem writeData_full {writeSpread : Bool} {env : PickEnv} {q : QueuedWrite H} {data : Bytes}
    {replica : Bool} {ds : List (DataStore H)}
    (h : (writeData writeSpread env q data replica ds).1 = .error (.fuseError .ENOSPC)) :
    ∀ j d, ds[j]? = some d → d.size ≤ env.dirSize j := by
  apply (pickDatastore_eq_none writeSpread env ds).mp
  unfold writeData at h
  split at h
  · rename_i hpick
    rw [hpick]
  · split at h
    · cases h
    · split at h <;> cases h

/-- **The choice is complete and terminates**, for all stores, sizes and choices; a write raises
`ENOSPC` only if all stores are full, and one that is no replica reports the store that got the
record. -/
theorem pickDatastore_complete (writeSpread : Bool) (env : PickEnv) (ds : List (DataStore H)) :
    Loop.Returns (pickRound writeSpread env) (.start ds) (pickDatastore writeSpread env ds) ∧
    (∀ j, (pickDatastore writeSpread env ds).1 = some j → ∃ d, ds[j]? = some d ∧ env.dirSize j < d.size) ∧
    ((pickDatastore writeSpread env ds).1 = none ↔ ∀ j d, ds[j]? = some d → d.size ≤ env.dirSize j) ∧
    ∀ (q : QueuedWrite H) (data : Bytes) (replica : Bool),
      ((writeData writeSpread env q data replica ds).1 = .error (.fuseError .ENOSPC) →
        ∀ j d, ds[j]? = some d → d.size ≤ env.dirSize j) ∧
      (env.putRaises = false → (∃ j d, ds[j]? = some d ∧ env.dirSize j < d.size) →
        ∃ j d ds', ds[j]? = some d ∧ env.dirSize j < d.size ∧ PutRecord ds ds' j q.hash data ∧
          writeData writeSpread env q data replica ds =
            (.ok (if replica then q else { q with chunk := d.chunk, block := env.dirSize j }), ds')) := by
  refine ⟨pickLoop_returns writeSpread env _ 0 _ ds (by simp), fun j hj => ?_,
    pickDatastore_eq_none writeSpread env ds, fun q data replica =>
    ⟨writeData_full, writeData_chosen writeSpread q data replica⟩⟩
  obtain ⟨d, _, hd, hroom, _⟩ := pickDatastore_room writeSpread env ds j hj
  exact ⟨d, hd, hroom⟩

/-- The write of a replica leaves the block as it was. -/
theorem replica_unrecorded :
    ¬ ∀ (env : PickEnv) (q : QueuedWrite Bytes) (data : Bytes) (replica : Bool)
      (ds : List (DataStore Bytes)), env.putRaises = false →
      (∃ j d, ds[j]? = some d ∧ env.dirSize j < d.size) →
      ∃ j d q' ds', ds[j]? = some d ∧ PutRecord ds ds' j q.hash data ∧
        writeData false env q data replica ds = (.ok q', ds') ∧ q'.chunk = d.chunk := by
  intro h
  -- the primary write reported the chunk 0, the mirror has one store with the chunk 1
  obtain ⟨j, d, q', ds', hd, _, hw, hchunk⟩ := h ⟨fun _ => 0, fun _ => 0, false⟩
    ⟨[7], [7], false, [7], 0, 0⟩ [7] true [.fresh 1] rfl ⟨0, .fresh 1, rfl, by decide⟩
  have hq : (Except.ok ⟨[7], [7], false, [7], 0, 0⟩ : Except PyError (QueuedWrite Bytes)) = .ok q' :=
    congrArg Prod.fst hw
  cases hq
  cases j with
  | zero =>
    cases hd
    cases hchunk
  | succ j => cases hd

end VeratyFS
