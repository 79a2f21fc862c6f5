import VeratyFS.Lib.Runs

/-!
# Reference counts that are settled late

The account of one shared object whose references are counted with delay: a dropped reference is
first a debt, then a queued request, and only when the request is collected does the counter go
down.  An object enters the table before it is stored (`pending`), and storing it resets its counter.

* `Account`, `Posting`, `Account.apply` — the account and what is posted to it; `accounts` is the
  transition system, and a policy for it (`System.meeting`) says which postings are allowed when.
* `Account.Posted` — the ways an account changes, as cases.
* `Account.Closed` — an object that is not in the table has no references, debts or requests.
* `Account.Covered` — the counter bounds the references: a counter that goes below zero belongs to
  an object without references.
* `Account.Balanced` — the counter is exact once everything is settled.
* `Account.Unflagged` — only objects without references are flagged.
-/

set_option autoImplicit false

namespace Refcount

open Pylib

structure Account where
  /-- The counter; `none` when the object is not in the table. -/
  uses : Option Int
  flag : Bool
  refs : Nat
  debt : Nat
  owed : Nat
  pending : Nat

inductive Posting where
  /-- Another reference to an object in the table. -/
  | acquire
  /-- The first reference; the object waits to be stored. -/
  | enter
  /-- A reference is dropped. -/
  | release
  /-- The drop is reported: a request is queued and the object flagged. -/
  | request
  /-- A reference is dropped without a report. -/
  | forget
  /-- A request is taken from the queue. -/
  | collect
  /-- The object is stored and its table entry written anew. -/
  | install
  /-- The object cannot be stored. -/
  | lose

namespace Account

/-- What an operation makes of an account; `none` when the account does not allow it. -/
def apply (a : Account) : Posting → Option Account
  | .acquire => a.uses.map fun u => { a with uses := some (u + 1), refs := a.refs + 1 }
  | .enter =>
    if a.uses = none then
      some { a with uses := some 0, flag := false, refs := a.refs + 1, pending := a.pending + 1 }
    else none
  | .release =>
    if 0 < a.refs then some { a with refs := a.refs - 1, debt := a.debt + 1 } else none
  | .request =>
    if 0 < a.debt ∧ a.uses.isSome then
      some { a with debt := a.debt - 1, owed := a.owed + 1, flag := true }
    else none
  | .forget => if 0 < a.refs then some { a with refs := a.refs - 1 } else none
  | .collect =>
    if 0 < a.owed then
      a.uses.map fun u =>
        { a with uses := some (u - 1), owed := a.owed - 1, flag := if u - 1 ≤ -1 then true else a.flag }
    else none
  | .install =>
    if 0 < a.pending ∧ a.uses.isSome then
      some { a with uses := some 1, flag := false, pending := a.pending - 1 }
    else none
  | .lose => if 0 < a.pending then some { a with pending := a.pending - 1 } else none

end Account

/-- The transition system of accounts. -/
def accounts : System Account Posting where
  step a op a' := a.apply op = some a'

namespace Account

variable {a a' : Account} {op : Posting}

/-! ## Invariants -/

/-- Nothing refers to an object that is not in the table. -/
def Closed (a : Account) : Prop :=
  a.uses = none → a.flag = false ∧ a.refs = 0 ∧ a.debt = 0 ∧ a.owed = 0 ∧ a.pending = 0

/-- References, debts and requests together exceed the counter by at most one. -/
def Covered (a : Account) : Prop :=
  ∀ u, a.uses = some u → (a.refs + a.debt + a.owed : Int) ≤ u + 1

/-- The counter, less what is still to be settled, is the number of references. -/
def Balanced (a : Account) : Prop :=
  ∀ u, a.uses = some u → u - a.owed - a.debt + a.pending = a.refs

/-- A flagged object has no references. -/
def Unflagged (a : Account) : Prop := a.flag = true → a.refs = 0

/-- The ways an account changes, with what each asks for. -/
inductive Posted (a : Account) : Posting → Account → Prop where
  | acquire {u : Int} (known : a.uses = some u) :
      Posted a .acquire { a with uses := some (u + 1), refs := a.refs + 1 }
  | enter (unknown : a.uses = none) :
      Posted a .enter
        { a with uses := some 0, flag := false, refs := a.refs + 1, pending := a.pending + 1 }
  | release (referred : 0 < a.refs) :
      Posted a .release { a with refs := a.refs - 1, debt := a.debt + 1 }
  | request (indebted : 0 < a.debt) {u : Int} (known : a.uses = some u) :
      Posted a .request { a with debt := a.debt - 1, owed := a.owed + 1, flag := true }
  | forget (referred : 0 < a.refs) : Posted a .forget { a with refs := a.refs - 1 }
  | collect (queued : 0 < a.owed) {u : Int} (known : a.uses = some u) :
      Posted a .collect
        { a with uses := some (u - 1), owed := a.owed - 1, flag := if u - 1 ≤ -1 then true else a.flag }
  | install (waiting : 0 < a.pending) {u : Int} (known : a.uses = some u) :
      Posted a .install { a with uses := some 1, flag := false, pending := a.pending - 1 }
  | lose (waiting : 0 < a.pending) : Posted a .lose { a with pending := a.pending - 1 }

theorem posted (hs : a.apply op = some a') : Posted a op a' := by
  cases op <;> simp only [Account.apply] at hs
  case acquire =>
    obtain ⟨u, hu, rfl⟩ := Option.map_eq_some_iff.mp hs
    exact .acquire hu
  case enter =>
    split at hs <;> cases hs
    exact .enter ‹_›
  case release =>
    split at hs <;> cases hs
    exact .release ‹_›
  case request =>
    split at hs <;> cases hs
    rename_i hg
    obtain ⟨u, hu⟩ := Option.isSome_iff_exists.mp hg.2
    exact .request hg.1 hu
  case forget =>
    split at hs <;> cases hs
    exact .forget ‹_›
  case collect =>
    split at hs
    · obtain ⟨u, hu, rfl⟩ := Option.map_eq_some_iff.mp hs
      exact .collect ‹_› hu
    · cases hs
  case install =>
    split at hs <;> cases hs
    rename_i hg
    obtain ⟨u, hu⟩ := Option.isSome_iff_exists.mp hg.2
    exact .install hg.1 hu
  case lose =>
    split at hs <;> cases hs
    exact .lose ‹_›

theorem Closed.apply (h : a.Closed) (hs : a.apply op = some a') : a'.Closed := by
  cases posted hs with
  | acquire | enter | collect | install => exact fun hn => by cases hn
  | release referred | forget referred =>
    intro hn
    obtain ⟨_, hr, _⟩ := h hn
    omega
  | request _ known =>
    intro hn
    dsimp only at hn
    rw [known] at hn
    cases hn
  | lose waiting =>
    intro hn
    obtain ⟨_, _, _, _, hp⟩ := h hn
    omega

/-- Covered is kept by every operation, `install` apart when more than two references, debts and
requests are about. -/
theorem Covered.apply (h : a.Covered) (hc : a.Closed) (hs : a.apply op = some a')
    (hop : op = .install → a.refs + a.debt + a.owed ≤ 2) : a'.Covered := by
  cases posted hs with
  | acquire known | collect _ known =>
    intro v hv
    cases hv
    have := h _ known
    dsimp only
    omega
  | enter unknown =>
    intro v hv
    cases hv
    obtain ⟨_, hr, hd, ho, _⟩ := hc unknown
    dsimp only
    omega
  | release | request | forget =>
    intro v hv
    have := h v hv
    dsimp only
    omega
  | install =>
    intro v hv
    cases hv
    have := hop rfl
    dsimp only
    omega
  | lose => exact fun v hv => h v hv

/-- Balanced is kept by every operation but a drop without a report, a store that fails, and an
`install` over a counter other than zero. -/
theorem Balanced.apply (h : a.Balanced) (hc : a.Closed) (hs : a.apply op = some a')
    (hforget : op ≠ .forget) (hlose : op ≠ .lose) (hinstall : op = .install → a.uses = some 0) :
    a'.Balanced := by
  cases posted hs with
  | acquire known | collect _ known =>
    intro v hv
    cases hv
    have := h _ known
    dsimp only
    omega
  | enter unknown =>
    intro v hv
    cases hv
    obtain ⟨_, hr, hd, ho, hp⟩ := hc unknown
    dsimp only
    omega
  | release | request =>
    intro v hv
    have := h v hv
    dsimp only
    omega
  | forget => exact absurd rfl hforget
  | install =>
    intro v hv
    cases hv
    have := h 0 (hinstall rfl)
    dsimp only
    omega
  | lose => exact absurd rfl hlose

/-- A counter that goes below zero when a request is collected belongs to an object without
references. -/
theorem Covered.collect_refs (h : a.Covered) {u : Int} (hu : a.uses = some u) (howed : 0 < a.owed)
    (hneg : u - 1 ≤ -1) : a.refs = 0 := by
  have := h u hu
  omega

/-- Unflagged is kept when flagged objects are not acquired and drops are reported last. -/
theorem Unflagged.apply (h : a.Unflagged) (hcov : a.Covered) (hs : a.apply op = some a')
    (hacquire : op = .acquire → a.flag = false) (hrequest : op = .request → a.refs = 0) :
    a'.Unflagged := by
  cases posted hs with
  | acquire =>
    intro hf
    rw [hacquire rfl] at hf
    cases hf
  | enter | install => exact fun hf => by cases hf
  | release | forget =>
    intro hf
    have := h hf
    dsimp only
    omega
  | request => exact fun _ => hrequest rfl
  | collect queued known =>
    intro hf
    dsimp only at hf ⊢
    split at hf
    · rename_i hneg
      exact hcov.collect_refs known queued hneg
    · exact h hf
  | lose => exact h

/-! ## Several operations at once -/

variable {D : Account → Posting → Prop}

/-- `n` drops. -/
theorem reaches_release (hD : ∀ a, D a .release) (a : Account) : ∀ n, n ≤ a.refs →
    (accounts.meeting D).Reaches a { a with refs := a.refs - n, debt := a.debt + n }
  | 0, _ => .refl _ a
  | n + 1, h => by
    refine (reaches_release hD a n (by omega)).trans (.single (e := .release) ⟨?_, hD _⟩)
    change (if 0 < a.refs - n then _ else none) = _
    rw [if_pos (by omega)]
    congr 1

/-- `n` drops without a report. -/
theorem reaches_forget (a : Account) : ∀ n, n ≤ a.refs → (0 < n → ∀ a, D a .forget) →
    (accounts.meeting D).Reaches a { a with refs := a.refs - n }
  | 0, _, _ => .refl _ a
  | n + 1, h, hD => by
    refine (reaches_forget a n (by omega) fun _ => hD (by omega)).trans
      (.single (e := .forget) ⟨?_, hD (by omega) _⟩)
    change (if 0 < a.refs - n then _ else none) = _
    rw [if_pos (by omega)]
    congr 1

end Account

end Refcount
