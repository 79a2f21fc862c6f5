import VeratyFS.Datastructures
import VeratyFS.Lib.Fifo

/-!
# A producer that waits for the write buffer

`WriteCache.append` on a full buffer waits in a loop until fewer than `capacity // 5` items are left.
For capacities below 5 this is zero, and no number of items is below zero.

* `AppendPc`, `Buffered`, `BufferStep` — where the producer stands in `append`; the buffer with its
  producer and consumers; one step of one of them.
* `BufferStep.effect` — what a step finds, and what it does; `Buffered.Kept` — what every step keeps.
* `stalled` — a producer that waits for a queue of less than zero items waits for ever.
* `write_buffer_law_iff` — the law of the queue holds in all runs exactly from capacity 5 on.
-/

set_option autoImplicit false

namespace VeratyFS

open Pylib

/-- Outside `append`, in its wait loop, or before `self.d.append(val)`. -/
inductive AppendPc (α : Type) where
  | idle
  | waiting (val : α)
  | appending (val : α)
  deriving DecidableEq, Repr

/-- The value that is not in the queue yet. -/
def AppendPc.pending {α : Type} : AppendPc α → List α
  | .idle => []
  | .waiting val => [val]
  | .appending val => [val]

structure Buffered (α : Type) where
  buffer : WriteCache α
  producer : AppendPc α
  /-- The arguments of the calls of `append`. -/
  offered : List α
  /-- What happened to the deque. -/
  events : List (QueueEvent α)

def Buffered.fresh {α : Type} (capacity : Nat) : Buffered α := ⟨⟨[], capacity⟩, .idle, [], []⟩

/-- The producer calls `append` and looks at the size, tests the condition of the loop, or appends;
    a consumer calls `popleft`. -/
inductive BufferStep (α : Type) where
  | call (val : α)
  | test
  | append
  | popleft (consumer : Nat)
  deriving DecidableEq, Repr

variable {α : Type}

/-- One step; `none` when the producer stands elsewhere. -/
def BufferStep.exec : BufferStep α → Buffered α → Option (Buffered α)
  | .call val, s =>
    match s.producer with
    | .idle =>
      some { s with
        producer := if s.buffer.d.length < s.buffer.capacity then .appending val else .waiting val
        offered := s.offered ++ [val] }
    | _ => none
  | .test, s =>
    match s.producer with
    | .waiting val =>
      some { s with
        producer := if s.buffer.d.length ≥ s.buffer.capacity / 5 then .waiting val else .appending val }
    | _ => none
  | .append, s =>
    match s.producer with
    | .appending val =>
      some { s with
        buffer := s.buffer.append val
        producer := .idle
        events := s.events ++ [.put val] }
    | _ => none
  | .popleft _, s =>
    match s.buffer.popleft with
    | none => some { s with events := s.events ++ [.empty] }
    | some (val, rest) => some { s with buffer := rest, events := s.events ++ [.taken val] }

def buffers (α : Type) : System (Buffered α) (BufferStep α) where
  step s e s' := e.exec s = some s'

/-- What a step finds, and what it does. -/
inductive BufferStep.Effect (s : Buffered α) : BufferStep α → Buffered α → Prop
  | call {val : α} (idle : s.producer = .idle) : Effect s (.call val) { s with
      producer := if s.buffer.d.length < s.buffer.capacity then .appending val else .waiting val
      offered := s.offered ++ [val] }
  | test {val : α} (waiting : s.producer = .waiting val) : Effect s .test { s with
      producer :=
        if s.buffer.d.length ≥ s.buffer.capacity / 5 then .waiting val else .appending val }
  | append {val : α} (appending : s.producer = .appending val) : Effect s .append { s with
      buffer := s.buffer.append val
      producer := .idle
      events := s.events ++ [.put val] }
  | empty (consumer : Nat) (none : s.buffer.d = []) :
      Effect s (.popleft consumer) { s with events := s.events ++ [.empty] }
  | taken (consumer : Nat) {val : α} {rest : WriteCache α} (first : s.buffer.d = val :: rest.d)
      (same : rest.capacity = s.buffer.capacity) :
      Effect s (.popleft consumer) { s with buffer := rest, events := s.events ++ [.taken val] }

theorem BufferStep.effect {e : BufferStep α} {s s' : Buffered α} (h : e.exec s = some s') :
    e.Effect s s' := by
  cases e with
  | call val =>
    rw [BufferStep.exec] at h
    split at h
    · rename_i hp
      cases h
      exact .call hp
    · cases h
  | test =>
    rw [BufferStep.exec] at h
    split at h
    · rename_i val hp
      cases h
      exact .test hp
    · cases h
  | append =>
    rw [BufferStep.exec] at h
    split at h
    · rename_i val hp
      cases h
      exact .append hp
    · cases h
  | popleft consumer =>
    rw [BufferStep.exec] at h
    split at h
    · rename_i hpop
      cases h
      refine .empty consumer ?_
      unfold WriteCache.popleft at hpop
      split at hpop
      · assumption
      · cases hpop
    · rename_i val rest hpop
      cases h
      exact .taken consumer (WriteCache.popleft_eq_some hpop).1 (WriteCache.popleft_eq_some hpop).2

/-- The law of the queue in a state. -/
structure QueueLaw (capacity : Nat) (s : Buffered α) : Prop where
  bounded : s.buffer.d.length ≤ capacity
  inOrder : takes s.events <+: s.offered
  conserved : s.offered = takes s.events ++ s.buffer.d ++ s.producer.pending
  leaves : ∀ val, s.producer = .waiting val → s.buffer.d = [] →
    ∃ s', (buffers α).step s .test s' ∧ s'.producer = .appending val

/-! ## What every step keeps -/

structure Buffered.Kept (capacity : Nat) (s : Buffered α) : Prop where
  sized : s.buffer.capacity = capacity
  bounded : s.buffer.d.length ≤ capacity
  /-- There is room for what is about to be appended. -/
  room : ∀ val, s.producer = .appending val → s.buffer.d.length < capacity
  queue : (fifo α).Run [] s.events s.buffer.d
  offered : s.offered = puts s.events ++ s.producer.pending

variable {capacity : Nat} {s s' : Buffered α}

theorem Buffered.Kept.fresh (capacity : Nat) : (Buffered.fresh capacity : Buffered α).Kept capacity :=
  ⟨rfl, Nat.zero_le _, (fun _ h => by cases h), .nil _, rfl⟩

theorem Buffered.Kept.step (hs : s.Kept capacity) {e : BufferStep α} (h : (buffers α).step s e s') :
    s'.Kept capacity := by
  cases BufferStep.effect h with
  | @call val hp =>
    have hoffered := hs.offered
    rw [hp] at hoffered
    refine ⟨hs.sized, hs.bounded, fun v hv => ?_, hs.queue, ?_⟩
    · dsimp only at hv ⊢
      split at hv
      · rename_i hlt
        exact hs.sized ▸ hlt
      · cases hv
    · dsimp only
      rw [hoffered]
      split <;> simp [AppendPc.pending]
  | @test val hp =>
    have hoffered := hs.offered
    rw [hp] at hoffered
    have hcapacity := hs.sized
    refine ⟨hs.sized, hs.bounded, fun v hv => ?_, hs.queue, ?_⟩
    · dsimp only at hv ⊢
      split at hv
      · cases hv
      · omega
    · dsimp only
      rw [hoffered]
      split <;> rfl
  | @append val hp =>
    have hoffered := hs.offered
    rw [hp] at hoffered
    have hroom := hs.room val hp
    refine ⟨hs.sized, ?_, fun v hv => (by cases hv), hs.queue.append (.single (.put _ val)), ?_⟩
    · dsimp only
      rw [WriteCache.append_d, List.length_append, List.length_singleton]
      omega
    · dsimp only
      rw [hoffered, puts_append]
      simp [AppendPc.pending, puts]
  | empty _ hd =>
    refine ⟨hs.sized, hs.bounded, hs.room, ?_, ?_⟩
    · dsimp only
      rw [hd]
      exact (hd ▸ hs.queue).append (.single .empty)
    · dsimp only
      rw [hs.offered, puts_append]
      simp [puts]
  | @taken _ val rest hd hcapacity =>
    have hlength : s.buffer.d.length = rest.d.length + 1 := by rw [hd, List.length_cons]
    refine ⟨hcapacity.trans hs.sized, ?_, fun v hv => ?_, ?_, ?_⟩
    · have := hs.bounded
      dsimp only
      omega
    · have := hs.room v hv
      dsimp only
      omega
    · exact (hd ▸ hs.queue).append (.single (.taken val rest.d))
    · dsimp only
      rw [hs.offered, puts_append]
      simp [puts]

theorem Buffered.Kept.run (hs : s.Kept capacity) {es : List (BufferStep α)}
    (h : (buffers α).Run s es s') : s'.Kept capacity :=
  h.invariant (fun _ _ _ hs hstep => hs.step hstep) hs

/-! ## The loop -/

/-- From five places on, an empty queue lets the producer go. -/
theorem Buffered.Kept.leaves (hs : s.Kept capacity) (hfive : 5 ≤ capacity) {val : α}
    (hp : s.producer = .waiting val) (hd : s.buffer.d = []) :
    ∃ s', (buffers α).step s .test s' ∧ s'.producer = .appending val := by
  have hpos : ¬ (0 ≥ s.buffer.capacity / 5) := by
    rw [hs.sized]
    omega
  refine ⟨{ s with producer := .appending val }, ?_, rfl⟩
  change BufferStep.test.exec s = _
  simp only [BufferStep.exec, hp, hd, List.length_nil, if_neg hpos]

theorem Buffered.Kept.law (hs : s.Kept capacity) (hfive : 5 ≤ capacity) : QueueLaw capacity s := by
  have hputs := fifo_conserved hs.queue
  rw [List.nil_append] at hputs
  have hconserved : s.offered = takes s.events ++ s.buffer.d ++ s.producer.pending := by
    rw [hs.offered, hputs]
  refine ⟨hs.bounded, ?_, hconserved, fun val hp hd => hs.leaves hfive hp hd⟩
  rw [hconserved, List.append_assoc]
  exact List.prefix_append _ _

/-- **A stall**: with less than five places a producer in the loop stays there, whatever the consumers
do. -/
theorem stalled {val : α} {es : List (BufferStep α)} (h : (buffers α).Run s es s')
    (hcapacity : s.buffer.capacity < 5) (hp : s.producer = .waiting val) :
    s'.producer = .waiting val := by
  refine (h.invariant (I := fun s => s.buffer.capacity < 5 ∧ s.producer = .waiting val)
    (fun s e s' hs hstep => ?_) ⟨hcapacity, hp⟩).2
  obtain ⟨hcapacity, hp⟩ := hs
  cases BufferStep.effect hstep with
  | call hp' | append hp' =>
    rw [hp] at hp'
    cases hp'
  | test hp' =>
    rw [hp] at hp'
    cases hp'
    have hzero : s.buffer.d.length ≥ s.buffer.capacity / 5 := by omega
    exact ⟨hcapacity, if_pos hzero⟩
  | empty => exact ⟨hcapacity, hp⟩
  | taken _ _ hsame => exact ⟨hsame ▸ hcapacity, hp⟩

/-! ## A full buffer that is emptied -/

/-- As long as there is room, a call and the append after it put another value in. -/
theorem fill (val : α) (capacity : Nat) : ∀ n ≤ capacity, ∃ es s,
    (buffers α).Run (.fresh capacity) es s ∧ s.buffer = ⟨List.replicate n val, capacity⟩ ∧
      s.producer = .idle
  | 0, _ => ⟨[], _, .nil _, rfl, rfl⟩
  | n + 1, hn => by
    obtain ⟨es, s, hrun, hbuffer, hp⟩ := fill val capacity n (Nat.le_of_succ_le hn)
    have hroom : s.buffer.d.length < s.buffer.capacity := by
      rw [hbuffer]
      dsimp only
      rw [List.length_replicate]
      exact hn
    have hcall : (buffers α).step s (.call val)
        { s with producer := .appending val, offered := s.offered ++ [val] } := by
      change (BufferStep.call val).exec s = _
      simp only [BufferStep.exec, hp, if_pos hroom]
    have happend : (buffers α).step
        { s with producer := .appending val, offered := s.offered ++ [val] } .append
        ⟨s.buffer.append val, .idle, s.offered ++ [val], s.events ++ [.put val]⟩ := rfl
    refine ⟨_, _, hrun.append (.cons hcall (.single happend)), ?_, rfl⟩
    dsimp only
    rw [hbuffer, WriteCache.append, List.replicate_succ']

/-- Consumers empty the queue. -/
theorem drain : ∀ (l : List α) (s : Buffered α), s.buffer.d = l → ∃ es s',
    (buffers α).Run s es s' ∧ s'.buffer = ⟨[], s.buffer.capacity⟩ ∧ s'.producer = s.producer
  | [], s, hd => by
    refine ⟨[], s, .nil s, ?_, rfl⟩
    rw [← hd]
  | val :: l, s, hd => by
    have hpop : (buffers α).step s (.popleft 0)
        { s with buffer := ⟨l, s.buffer.capacity⟩, events := s.events ++ [.taken val] } := by
      change (BufferStep.popleft 0).exec s = _
      simp only [BufferStep.exec, WriteCache.popleft, hd]
    obtain ⟨es, s', hrun, hbuffer, hp⟩ := drain l
      { s with buffer := ⟨l, s.buffer.capacity⟩, events := s.events ++ [.taken val] } rfl
    exact ⟨_, s', .cons hpop hrun, hbuffer, hp⟩

/-- A producer that found the buffer full, and an empty queue. -/
theorem blocked (val : α) (capacity : Nat) : ∃ es s, (buffers α).Run (.fresh capacity) es s ∧
    s.buffer = ⟨[], capacity⟩ ∧ s.producer = .waiting val := by
  obtain ⟨es, s, hrun, hbuffer, hp⟩ := fill val capacity capacity (Nat.le_refl _)
  have hfull : ¬ s.buffer.d.length < s.buffer.capacity := by
    rw [hbuffer]
    simp
  have hcall : (buffers α).step s (.call val)
      { s with producer := .waiting val, offered := s.offered ++ [val] } := by
    change (BufferStep.call val).exec s = _
    simp only [BufferStep.exec, hp, if_neg hfull]
  obtain ⟨es', s', hdrain, hbuffer', hp'⟩ := drain _
    { s with producer := .waiting val, offered := s.offered ++ [val] } rfl
  refine ⟨_, s', hrun.append (.cons hcall hdrain), ?_, hp'⟩
  rw [hbuffer']
  dsimp only
  rw [hbuffer]

/-- **The law of the write buffer**: it holds in all runs of a producer and its consumers exactly if
the buffer has five places or more. -/
theorem write_buffer_law_iff [hα : Nonempty α] (capacity : Nat) :
    (∀ es (s : Buffered α), (buffers α).Run (.fresh capacity) es s → QueueLaw capacity s) ↔
      5 ≤ capacity := by
  constructor
  · intro hlaw
    by_contra hfive
    obtain ⟨val⟩ := hα
    obtain ⟨es, s, hrun, hbuffer, hp⟩ := blocked val capacity
    obtain ⟨s', hstep, hp'⟩ := (hlaw es s hrun).leaves val hp (by rw [hbuffer])
    have hstays := stalled (.single hstep) (by rw [hbuffer]; exact Nat.lt_of_not_le hfive) hp
    rw [hp'] at hstays
    cases hstays
  · intro hfive es s hrun
    exact ((Buffered.Kept.fresh capacity).run hrun).law hfive

theorem write_buffer_law_iff_sample :
    QueueLaw 5 (⟨⟨[], 5⟩, .idle, [7], [.put 7, .taken 7]⟩ : Buffered Nat) :=
  (write_buffer_law_iff 5).mpr (by decide) [.call 7, .append, .popleft 0] _
    (.cons rfl (.cons rfl (.single rfl)))

/-- **One place**: 7 fills it, the producer of 8 waits, 7 is taken, and 8 is never appended. -/
theorem one_place_stalls :
    ∃ s : Buffered Nat, (buffers Nat).Run (.fresh 1) [.call 7, .append, .call 8, .popleft 0] s ∧
      s.buffer.d = [] ∧ ¬ QueueLaw 1 s ∧
      ∀ es s', (buffers Nat).Run s es s' → s'.producer = .waiting 8 := by
  have hstays : ∀ es s', (buffers Nat).Run ⟨⟨[], 1⟩, .waiting 8, [7, 8], [.put 7, .taken 7]⟩ es s' →
      s'.producer = .waiting 8 := fun _ _ hrun => stalled hrun (by decide) rfl
  refine ⟨_, .cons rfl (.cons rfl (.cons rfl (.single rfl))), rfl, fun hlaw => ?_, hstays⟩
  obtain ⟨s', hstep, hp⟩ := hlaw.leaves 8 rfl rfl
  have hwaits := hstays [.test] s' (.single hstep)
  rw [hp] at hwaits
  cases hwaits

end VeratyFS
