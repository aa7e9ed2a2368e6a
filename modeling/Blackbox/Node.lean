import Blackbox.TcpServer
import Blackbox.DataPath

/-!
# The node: TCP sessions and the processing worker on one ring

The ingest thread runs the `TcpSession`s of `tcp_server.cpp` over the ring that
`Pipeline::processing_worker` drains, and the two threads interleave at every push and every step
of the worker. A read (`async_read_some` completing) frames its chunk at once and leaves the
pushes of `process_buffer` pending; the ingest thread then makes them one by one, each against
the ring as the worker has left it. A chunk read while pushes are pending queues its pushes after
them: the event loop runs the next callback only once `process_buffer` has returned, so the ring
sees the pushes in this order either way.

Every node step is a step of the pipeline model or none (`Node.run_pipeline`), so the ring stays
a bounded FIFO queue and the worker keeps its invariant. Each session's frames, pushed or pending,
fit the lines of its stream one to one (`node_session_frames`), and those the ring took are in
their session's order. The pushes a session has made, each logged by the step that passes its
pointer and length to `RingBuffer::push`, are the first of those frames, and all of them once
`process_buffer` has returned (`session_push_attempts`). Every push is stored, truncated to 4096
bytes, or counted as a drop, and the worker pops the stored payloads in push order
(`node_pushes_reach_storage`).
-/

namespace Blackbox

/-- The ingest thread and the processing thread over one ring: the pipeline (ring, worker and
their history), every TCP session by its id, the pushes `process_buffer` has still to make (the
session, then the pointer and length it passes), the drop counter `packets_dropped_`, and, as
history the code does not keep, every push made with its session, the bytes it read and its
result. -/
structure Node (N : Nat) (α R : Type) where
  pipeline : Pipeline N α R
  sessions : Nat → TcpSession
  pending : List (Nat × (Nat → UInt8) × Nat)
  dropped : Nat
  log : List (Nat × List UInt8 × Bool)

namespace Node

variable {N : Nat} {α R : Type}

/-- What can happen next: session `sid` reads `chunk`, the ingest thread makes its next push at
time `now`, or the processing worker takes one step. -/
inductive Act
  | receive (sid : Nat) (chunk : List UInt8)
  | push (now : Int)
  | worker

/-- Every session fresh over its own read buffer, an empty ring and the worker about to start. -/
def init (buffers : Nat → List UInt8) (rawEvent : LogEvent) : Node N α R :=
  ⟨Pipeline.start RingBuffer.init rawEvent, fun sid => TcpSession.fresh (buffers sid), [], 0, []⟩

/-- The pushes made, each with its session and the bytes its pointer and length give, in order. -/
def pushes (n : Node N α R) : List (Nat × List UInt8) := n.log.map fun a => (a.1, a.2.1)

/-- Every frame so far with its session, in push order: those pushed, then those pending. -/
def framed (n : Node N α R) : List (Nat × List UInt8) :=
  n.pushes ++ n.pending.map fun p => (p.1, bytes p.2.1 p.2.2)

/-- The pushes the ring took, with their sessions, in push order. -/
def accepted (n : Node N α R) : List (Nat × List UInt8) :=
  (n.log.filter fun a => a.2.2).map fun a => (a.1, a.2.1)

/-- Each session tracks the chunks it has read, its frames being those it has pushed or has
pending. -/
def Framing (chunks : Nat → List (List UInt8)) (n : Node N α R) : Prop :=
  ∀ sid, Tracks (attemptsOf sid n.framed) (n.sessions sid).stickyBuffer (chunks sid).flatten

theorem framing_init (buffers : Nat → List UInt8) (rawEvent : LogEvent) :
    Framing (fun _ => []) (init buffers rawEvent : Node N α R) :=
  fun _ => tracks_nil

/-- The ring took exactly the accepted pushes, each truncated to 4096 bytes, and the drop counter
counts the refused ones. -/
structure Accounts (n : Node N α R) : Prop where
  pushed_eq : n.pipeline.pushed = n.accepted.map fun a => a.2.take 4096
  dropped_eq : n.dropped = (n.log.filter fun a => !a.2.2).length

theorem accounts_init (buffers : Nat → List UInt8) (rawEvent : LogEvent) :
    Accounts (init buffers rawEvent : Node N α R) :=
  ⟨rfl, rfl⟩

variable [One R] [LT R] [DecidableRel (α := R) (· < ·)]
  (eng : Engines α R) (threshold : R) (batchSize : Int)

/-- One step of the node. A read that had a `substr` throw would leave the node as it is;
`TcpSession.receive_spec` shows none does. -/
def step (n : Node N α R) : Act → Node N α R
  | .receive sid chunk =>
    match (n.sessions sid).receive chunk with
    | none => n
    | some (fs, s) =>
      { n with sessions := Function.update n.sessions sid s,
               pending := n.pending ++ fs.map fun f => (sid, f.ptr s.data, f.len) }
  | .push now =>
    match n.pending with
    | [] => n
    | (sid, ptr, len) :: rest =>
      let ok := (n.pipeline.ring.push now ptr len).1
      { n with pipeline := n.pipeline.step eng threshold batchSize (.push now ptr len),
               pending := rest, dropped := if ok then n.dropped else n.dropped + 1,
               log := n.log ++ [(sid, bytes ptr len, ok)] }
  | .worker => { n with pipeline := n.pipeline.step eng threshold batchSize .worker }

def run (n : Node N α R) (acts : List Act) : Node N α R :=
  acts.foldl (step eng threshold batchSize) n

end Node

/-- The chunks session `sid` reads, in order. -/
def received (sid : Nat) : List Node.Act → List (List UInt8)
  | [] => []
  | .receive s c :: acts => if s = sid then c :: received sid acts else received sid acts
  | _ :: acts => received sid acts

theorem received_cons (sid : Nat) (a : Node.Act) (acts : List Node.Act) :
    received sid (a :: acts) = received sid [a] ++ received sid acts := by
  cases a with
  | receive s c => by_cases h : s = sid <;> simp [received, h]
  | push now => rfl
  | worker => rfl

theorem truncated_eq_take (data : Nat → UInt8) (len : Nat) :
    truncated data len = (bytes data len).take 4096 := by
  rw [truncated, bytes, bytes, ← List.map_take, List.take_range, Nat.min_comm]

namespace Pipeline

variable {N : Nat} {α R : Type} [One R] [LT R] [DecidableRel (α := R) (· < ·)]
  {eng : Engines α R} {threshold : R} {batchSize : Int}

@[simp] theorem workerStep_pushed (p : Pipeline N α R) :
    (p.workerStep eng threshold batchSize).pushed = p.pushed := by
  unfold Pipeline.workerStep
  repeat' split
  all_goals rfl

theorem run_append (p : Pipeline N α R) (as bs : List Act) :
    p.run eng threshold batchSize (as ++ bs) =
      (p.run eng threshold batchSize as).run eng threshold batchSize bs :=
  List.foldl_append _ _ _ _

end Pipeline

namespace Node

variable {N : Nat} {α R : Type} [One R] [LT R] [DecidableRel (α := R) (· < ·)]
  (eng : Engines α R) (threshold : R) (batchSize : Int)

/-! ### The node runs the pipeline -/

/-- A node step moves the pipeline by one of its own steps, or not at all. -/
theorem step_pipeline (n : Node N α R) (a : Act) :
    ∃ as : List Pipeline.Act, (n.step eng threshold batchSize a).pipeline =
      n.pipeline.run eng threshold batchSize as := by
  cases a with
  | receive sid chunk =>
    refine ⟨[], ?_⟩
    simp only [step]
    split <;> rfl
  | push now =>
    simp only [step]
    split
    · exact ⟨[], rfl⟩
    · exact ⟨[.push now _ _], rfl⟩
  | worker => exact ⟨[.worker], rfl⟩

theorem run_pipeline : ∀ (acts : List Act) (n : Node N α R),
    ∃ as : List Pipeline.Act, (n.run eng threshold batchSize acts).pipeline =
      n.pipeline.run eng threshold batchSize as
  | [], _ => ⟨[], rfl⟩
  | a :: acts, n => by
    obtain ⟨as, has⟩ := step_pipeline eng threshold batchSize n a
    obtain ⟨bs, hbs⟩ := run_pipeline acts (n.step eng threshold batchSize a)
    exact ⟨as ++ bs, by rw [Pipeline.run_append, ← has]; exact hbs⟩

/-! ### Framing -/

@[simp] theorem sessions_push (n : Node N α R) (now : Int) :
    (n.step eng threshold batchSize (.push now)).sessions = n.sessions := by
  simp only [Node.step]
  split <;> rfl

theorem framed_push (n : Node N α R) (now : Int) :
    (n.step eng threshold batchSize (.push now)).framed = n.framed := by
  simp only [Node.step]
  split
  · rfl
  · rename_i sid ptr len rest h
    simp [framed, pushes, h]

theorem Framing.step {chunks : Nat → List (List UInt8)} {n : Node N α R}
    (h : Framing chunks n) (a : Act) :
    Framing (fun sid => chunks sid ++ received sid [a]) (n.step eng threshold batchSize a) := by
  cases a with
  | receive sid₀ c =>
    intro sid
    obtain ⟨fs, s₁, hr, hbytes, hsticky, -⟩ := TcpSession.receive_spec (n.sessions sid₀) c
    have hfr : (fs.map fun f => (sid₀, bytes (f.ptr s₁.data) f.len)) =
        (fs.map (Frame.bytes s₁.data)).map fun x => (sid₀, x) := by simp [Frame.bytes]
    simp only [Node.step, hr, framed, pushes, List.map_append, List.map_map, Function.comp_def,
      ← List.append_assoc]
    rw [← pushes, ← framed, attemptsOf_append, hfr, attemptsOf_map]
    by_cases hs : sid₀ = sid
    · subst hs
      simp only [received, if_true, Function.update_same, List.flatten_append, List.flatten_singleton,
        hbytes, hsticky]
      exact (h sid₀).append_frames c |>.keep_short
    · simp only [received, hs, if_false, Function.update_noteq (Ne.symm hs), List.append_nil]
      exact h sid
  | push now =>
    intro sid
    rw [framed_push, sessions_push]
    simpa [received] using h sid
  | worker => simpa [Framing, received, Node.step, framed] using h

theorem Framing.run : ∀ (acts : List Act) {chunks : Nat → List (List UInt8)} {n : Node N α R},
    Framing chunks n →
      Framing (fun sid => chunks sid ++ received sid acts) (n.run eng threshold batchSize acts)
  | [], _, _, h => by simpa [received] using h
  | a :: acts, chunks, n, h => by
    have := Framing.run acts (h.step eng threshold batchSize a)
    simpa only [received_cons _ a acts, List.append_assoc] using this

/-! ### Accounting -/

theorem Accounts.step {n : Node N α R} (h : Accounts n) (a : Act) :
    Accounts (n.step eng threshold batchSize a) := by
  cases a with
  | receive sid c =>
    simp only [Node.step]
    split
    · exact h
    · exact ⟨h.pushed_eq, h.dropped_eq⟩
  | push now =>
    simp only [Node.step]
    split
    · exact h
    · rename_i sid ptr len rest _
      constructor <;> dsimp only [Pipeline.step, accepted]
      · cases (n.pipeline.ring.push now ptr len).1 <;>
          simp [h.pushed_eq, accepted, truncated_eq_take]
      · cases (n.pipeline.ring.push now ptr len).1 <;> simp [h.dropped_eq]
  | worker =>
    constructor <;> simp only [Node.step, Pipeline.step, Pipeline.workerStep_pushed, accepted]
    exacts [h.pushed_eq, h.dropped_eq]

theorem Accounts.run : ∀ (acts : List Act) {n : Node N α R}, Accounts n →
    Accounts (n.run eng threshold batchSize acts)
  | [], _, h => h
  | a :: acts, _, h => Accounts.run acts (h.step eng threshold batchSize a)

/-- From fresh sessions, each session's frames, pushed or pending, fit the lines it has read. -/
theorem framed_fits (buffers : Nat → List UInt8) (rawEvent : LogEvent) (acts : List Act)
    (sid : Nat) : List.Forall₂ Fits
      (attemptsOf sid ((init buffers rawEvent : Node N α R).run eng threshold batchSize acts).framed)
      (lines (received sid acts).flatten) := by
  simpa using (Framing.run eng threshold batchSize acts (framing_init buffers rawEvent) sid).1

end Node

section Results

variable {N : Nat} {α R : Type} [One R] [LT R] [DecidableRel (α := R) (· < ·)]

/-- From fresh sessions and an empty ring, under any interleaving of reads, pushes and worker
steps: the frames of each session, pushed or still pending, are one per newline it has read, in
order, each fitting its line; and the frames of that session the ring took are among them in the
same order. -/
theorem node_session_frames (eng : Engines α R) (threshold : R) (batchSize : Int)
    (buffers : Nat → List UInt8) (rawEvent : LogEvent) (acts : List Node.Act) (sid : Nat) :
    let n := (Node.init buffers rawEvent : Node N α R).run eng threshold batchSize acts
    List.Forall₂ Fits (attemptsOf sid n.framed) (lines (received sid acts).flatten) ∧
      List.Sublist (attemptsOf sid n.accepted) (attemptsOf sid n.framed) := by
  refine ⟨Node.framed_fits eng threshold batchSize buffers rawEvent acts sid, ?_⟩
  unfold attemptsOf Node.accepted Node.framed Node.pushes
  exact ((((List.filter_sublist _).map _).trans (List.sublist_append_left _ _)).filter _).map _

/-- From fresh sessions and an empty ring, under any interleaving of reads, pushes and worker
steps: no `process_buffer` call has a `substr` throw, and each reads every direct push inside
`data_[0, bytes_transferred)`; the pushes session `sid` has made are, in order, the first of its
frames, which are one per newline it has read, the `k`-th a suffix of its `k`-th line and that
whole line when it is at most 8192 bytes; once every `process_buffer` call has made its pushes,
they are all of its frames; and the ring has taken exactly the pushes it accepted, each truncated
to 4096 bytes. -/
theorem session_push_attempts (eng : Engines α R) (threshold : R) (batchSize : Int)
    (buffers : Nat → List UInt8) (rawEvent : LogEvent) (acts : List Node.Act) (sid : Nat) :
    let n := (Node.init buffers rawEvent : Node N α R).run eng threshold batchSize acts
    (∀ data sticky len, ∃ fs st, processBuffer data sticky len = some (fs, st) ∧
        ∀ f ∈ fs, f.InRange len) ∧
      (∃ F, F.length = (received sid acts).flatten.count newline ∧
        List.Forall₂ Fits F (lines (received sid acts).flatten) ∧
        attemptsOf sid n.pushes <+: F ∧ (n.pending = [] → attemptsOf sid n.pushes = F)) ∧
      n.pipeline.pushed = n.accepted.map fun a => a.2.take 4096 := by
  intro n
  have hfits : List.Forall₂ Fits (attemptsOf sid n.framed) (lines (received sid acts).flatten) :=
    Node.framed_fits eng threshold batchSize buffers rawEvent acts sid
  refine ⟨fun data sticky len => ?_, ⟨_, hfits.length_eq.trans (lines_length _), hfits, ?_,
    fun h0 => ?_⟩, (Node.Accounts.run eng threshold batchSize acts (Node.accounts_init buffers
      rawEvent)).pushed_eq⟩
  · obtain ⟨fs, hp, -, hin⟩ := processBuffer_spec data sticky len
    exact ⟨fs, _, hp, hin⟩
  · rw [Node.framed, attemptsOf_append]
    exact List.prefix_append _ _
  · rw [Node.framed, h0, List.map_nil, List.append_nil]

theorem session_push_attempts_two :
    let n := (Node.init (fun _ => []) LogEvent.blank : Node 2 Unit Int).run Engines.sample 0 1
      [.receive 0 [97, 10, 98, 10], .push 0, .push 1]
    n.pending = [] ∧ attemptsOf 0 n.pushes = [[97], [98]] := by
  intro n
  obtain ⟨fs, s, hr, hb, -, -⟩ := TcpSession.receive_spec (TcpSession.fresh []) [97, 10, 98, 10]
  obtain ⟨f₁, f₂, rfl⟩ : ∃ f₁ f₂, fs = [f₁, f₂] := by
    have hl : fs.length = 2 := by simpa using congrArg List.length hb
    match fs, hl with
    | [f₁, f₂], _ => exact ⟨f₁, f₂, rfl⟩
  have h0 : n.pending = [] := by
    simp only [n, Node.run, List.foldl_cons, List.foldl_nil, Node.step, Node.init, hr]
    rfl
  obtain ⟨-, ⟨F, -, hF, -, hp⟩, -⟩ := session_push_attempts Engines.sample 0 1 (fun _ => [])
    LogEvent.blank [.receive 0 [97, 10, 98, 10], .push 0, .push 1] 0
  exact ⟨h0, (hp h0).trans (eq_of_forall₂_fits hF (by decide))⟩

/-- From fresh sessions and an empty ring, under any interleaving of reads, pushes and worker
steps: every push made is stored or counted as a drop, the drop counter counting exactly the
refused ones; the worker has popped the stored payloads (each push's first 4096 bytes) in push
order, but for fewer than `N` still in the ring; and at an iteration boundary storage has received
exactly the popped events, in order, each with its enriched parse and score. -/
theorem node_pushes_reach_storage (hN : 0 < N) (eng : Engines α R) (threshold : R)
    (batchSize : Int) (hb : 0 ≤ batchSize) (buffers : Nat → List UInt8) (rawEvent : LogEvent)
    (acts : List Node.Act) :
    let n := (Node.init buffers rawEvent : Node N α R).run eng threshold batchSize acts
    n.dropped = (n.log.filter fun a => !a.2.2).length ∧
      ∃ q, n.accepted.map (fun a => a.2.take 4096) = n.pipeline.popped.map LogEvent.payload ++ q ∧
        q.length < N ∧
        (n.pipeline.collected = 0 → enqueued n.pipeline.calls = n.pipeline.popped.map fun e =>
          (eng.enrich (eng.process e), eng.finalScore (eng.enrich (eng.process e)))) := by
  intro n
  have ha : Node.Accounts n :=
    Node.Accounts.run eng threshold batchSize acts (Node.accounts_init buffers rawEvent)
  obtain ⟨as, has⟩ := Node.run_pipeline eng threshold batchSize acts
    (Node.init buffers rawEvent : Node N α R)
  have hf : n.pipeline.Flow [] := by
    rw [has]
    exact Pipeline.Flow.run as (Pipeline.flow_start (stores_init hN) rawEvent)
  have hi : Pipeline.Inv eng threshold batchSize n.pipeline := by
    rw [has]
    exact Pipeline.Inv.run as (Pipeline.inv_start hb RingBuffer.init rawEvent)
  obtain ⟨q, hs, hq⟩ := hf
  refine ⟨ha.dropped_eq, q, ha.pushed_eq ▸ hq, hs.length_lt, fun h0 => ?_⟩
  rw [(hi.boundary h0).2, enqueued_flatMap]

theorem node_pushes_reach_storage_full :
    let n := (Node.init (fun _ => []) LogEvent.blank : Node 2 Unit Int).run Engines.sample 0 1
      [.receive 0 [97, 10, 98, 10], .push 0, .push 1]
    0 < 2 ∧ 0 ≤ (1 : Int) ∧ n.dropped = (n.log.filter fun a => !a.2.2).length :=
  ⟨by decide, by decide, (node_pushes_reach_storage (by decide) Engines.sample 0 1 (by decide)
    (fun _ => []) LogEvent.blank [.receive 0 [97, 10, 98, 10], .push 0, .push 1]).1⟩

end Results

end Blackbox
