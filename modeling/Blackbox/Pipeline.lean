import Blackbox.RingBuffer
import Mathlib.Algebra.Ring.Int.Defs

/-!
# The processing worker

`Pipeline::processing_worker` drains up to `BATCH_SIZE` events from the ring, parsing each as it
pops it, then runs the logic loop over the batch: enrichment, the rule engine, the detector when
no rule hits, the alert for a critical log, and the write to storage. Producers push between any
two of its steps (`Pipeline.run`). Whatever the pushes, each finished iteration popped at most
`BATCH_SIZE` events and made, for each of them in pop order, the calls specified for one
log (`expectedCalls`); so wherever the worker stands between iterations, its calls are one
such block per popped event, in pop order (`Pipeline.Inv.boundary`).
-/

namespace Blackbox

/-- Modelled from the spec: the location `geoip_->lookup` returns (its header is missing), with
the three fields the worker copies. -/
structure GeoLocation (R : Type) where
  countryIso : String
  latitude : R
  longitude : R
  deriving DecidableEq

/-- Modelled from the spec: `ParsedLog` of the missing `parser_engine.h`. `fields` stands for the
structured fields (service, severity, message, …) that the worker neither reads nor writes. -/
structure ParsedLog (α R : Type) where
  host : String
  fields : α
  country : String
  lat : R
  lon : R
  embeddingVector : List R
  deriving DecidableEq

/-- The worker's collaborators, taken as pure functions: `parser_.process`, `geoip_->lookup`,
`rule_engine_->evaluate` and `brain_->evaluate`. -/
structure Engines (α R : Type) where
  process : LogEvent → ParsedLog α R
  lookup : String → Option (GeoLocation R)
  evaluateRule : ParsedLog α R → Option String
  evaluate : List R → R

/-- The calls of the logic loop that leave a trace: the detector, the two counters, the alert,
and the write to storage. -/
inductive Call (α R : Type)
  | evaluate (embeddingVector : List R)
  | incInferencesRun
  | incThreatsDetected
  | triggerAlert (host : String) (score : R) (reason : String)
  | enqueue (log : ParsedLog α R) (score : R)
  deriving DecidableEq

variable {α R : Type}

def enqueued (calls : List (Call α R)) : List (ParsedLog α R × R) :=
  calls.filterMap fun
    | .enqueue log score => some (log, score)
    | _ => none

@[simp] theorem enqueued_append (cs ds : List (Call α R)) :
    enqueued (cs ++ ds) = enqueued cs ++ enqueued ds :=
  List.filterMap_append _ _ _

theorem flatten_rounds {f : LogEvent → List (Call α R)} :
    ∀ rs : List (List LogEvent × List (Call α R)), (∀ r ∈ rs, r.2 = r.1.flatMap f) →
      (rs.map Prod.snd).flatten = (rs.map Prod.fst).flatten.flatMap f
  | [], _ => rfl
  | r :: rs, h => by
    rw [List.forall_mem_cons] at h
    simp [h.1, flatten_rounds rs h.2]

section Logic

variable [One R] [LT R] [DecidableRel (α := R) (· < ·)]

namespace Engines

variable (eng : Engines α R) (threshold : R)

/-- Step A of the logic loop. -/
def enrich (log : ParsedLog α R) : ParsedLog α R :=
  match eng.lookup log.host with
  | some loc => { log with country := loc.countryIso, lat := loc.latitude, lon := loc.longitude }
  | none => log

/-- One pass of the logic loop over a log, with `AI_THRESHOLD = threshold`: the calls it makes,
in order. -/
def logic (log : ParsedLog α R) : List (Call α R) :=
  let log := eng.enrich log
  match eng.evaluateRule log with
  | some ruleHit =>
    [.incThreatsDetected, .triggerAlert log.host 1 ("Rule: " ++ ruleHit), .enqueue log 1]
  | none =>
    let finalScore := eng.evaluate log.embeddingVector
    [.evaluate log.embeddingVector, .incInferencesRun] ++
      (if threshold < finalScore then
        [.incThreatsDetected, .triggerAlert log.host finalScore "AI Anomaly Detection"]
      else []) ++
      [.enqueue log finalScore]

/-- The score of an enriched log: 1 on a rule hit, the detector's value otherwise. -/
def finalScore (log : ParsedLog α R) : R :=
  match eng.evaluateRule log with
  | some _ => 1
  | none => eng.evaluate log.embeddingVector

def alertReason (log : ParsedLog α R) : String :=
  match eng.evaluateRule log with
  | some ruleHit => "Rule: " ++ ruleHit
  | none => "AI Anomaly Detection"

/-- The calls specified for one log, stated on their own: the detector and the inference counter
exactly when no rule hits; the threat counter and the alert exactly on a rule hit or a score above
the threshold; then the enriched log and its score to storage. -/
def expectedCalls (log : ParsedLog α R) : List (Call α R) :=
  let log := eng.enrich log
  (if (eng.evaluateRule log).isNone then [.evaluate log.embeddingVector, .incInferencesRun]
    else []) ++
    (if (eng.evaluateRule log).isSome ∨ threshold < eng.finalScore log then
      [.incThreatsDetected, .triggerAlert log.host (eng.finalScore log) (eng.alertReason log)]
    else []) ++
    [.enqueue log (eng.finalScore log)]

theorem logic_eq_expectedCalls (log : ParsedLog α R) :
    eng.logic threshold log = eng.expectedCalls threshold log := by
  unfold logic expectedCalls finalScore alertReason
  cases h : eng.evaluateRule (eng.enrich log) with
  | some ruleHit => simp [h]
  | none => simp [h]

end Engines

theorem enqueued_expectedCalls (eng : Engines α R) (threshold : R) (log : ParsedLog α R) :
    enqueued (eng.expectedCalls threshold log) =
      [(eng.enrich log, eng.finalScore (eng.enrich log))] := by
  unfold Engines.expectedCalls
  dsimp only
  split_ifs <;> simp [enqueued]

/-- Where `processing_worker` stands within an iteration: draining the ring (step 1), or past the
drain (the yield, or steps 2 and 3). -/
inductive Phase
  | drain
  | logic
  deriving DecidableEq

/-- The ring, the worker's locals and the calls it has made so far; and, as history the code
does not keep, the payloads of the producers' successful pushes, the events the worker has
popped, those of the current iteration, and each finished iteration's pops and calls. -/
structure Pipeline (N : Nat) (α R : Type) where
  ring : RingBuffer N
  rawEvent : LogEvent
  batchLogs : List (ParsedLog α R)
  collected : Nat
  phase : Phase
  calls : List (Call α R)
  pushed : List (List UInt8)
  popped : List LogEvent
  thisRound : List LogEvent
  rounds : List (List LogEvent × List (Call α R))

namespace Pipeline

variable {N : Nat}

/-- What can happen next: a producer's push, or one step of the worker. -/
inductive Act
  | push (now : Int) (data : Nat → UInt8) (len : Nat)
  | worker

/-- The worker thread starting on a ring, before its first iteration. -/
def start (ring : RingBuffer N) (rawEvent : LogEvent) : Pipeline N α R :=
  ⟨ring, rawEvent, [], 0, .drain, [], [], [], [], []⟩

variable (eng : Engines α R) (threshold : R) (batchSize : Int)

/-- One step of `processing_worker` with `BATCH_SIZE = batchSize`: one test of the drain loop and
its pop, or the rest of the iteration. -/
def workerStep (p : Pipeline N α R) : Pipeline N α R :=
  match p.phase with
  | .drain =>
    if (p.collected : Int) < batchSize then
      match p.ring.pop p.rawEvent with
      | (true, ev, ring) =>
        { p with
          ring := ring, rawEvent := ev, batchLogs := p.batchLogs ++ [eng.process ev],
          collected := p.collected + 1, popped := p.popped ++ [ev],
          thisRound := p.thisRound ++ [ev] }
      | (false, _, _) => { p with phase := .logic }
    else { p with phase := .logic }
  | .logic =>
    if p.collected = 0 then { p with phase := .drain, rounds := p.rounds ++ [([], [])] }
    else
      let calls := p.batchLogs.flatMap (eng.logic threshold)
      { p with
        batchLogs := [], collected := 0, phase := .drain, calls := p.calls ++ calls,
        thisRound := [], rounds := p.rounds ++ [(p.thisRound, calls)] }

def step (p : Pipeline N α R) : Act → Pipeline N α R
  | .push now data len =>
    let r := p.ring.push now data len
    { p with ring := r.2, pushed := if r.1 then p.pushed ++ [truncated data len] else p.pushed }
  | .worker => p.workerStep eng threshold batchSize

def run (p : Pipeline N α R) (acts : List Act) : Pipeline N α R :=
  acts.foldl (step eng threshold batchSize) p

/-- What the worker's history says of its locals and its calls. -/
structure Inv (p : Pipeline N α R) : Prop where
  popped_eq : p.popped = (p.rounds.map Prod.fst).flatten ++ p.thisRound
  batchLogs_eq : p.batchLogs = p.thisRound.map eng.process
  collected_eq : p.collected = p.thisRound.length
  collected_le : (p.collected : Int) ≤ batchSize
  calls_eq : p.calls = (p.rounds.map Prod.snd).flatten
  rounds : ∀ r ∈ p.rounds, (r.1.length : Int) ≤ batchSize ∧
    r.2 = r.1.flatMap fun e => eng.expectedCalls threshold (eng.process e)

variable {eng threshold batchSize} {p : Pipeline N α R}

theorem inv_start (hb : 0 ≤ batchSize) (ring : RingBuffer N) (rawEvent : LogEvent) :
    Inv eng threshold batchSize (start ring rawEvent : Pipeline N α R) :=
  ⟨rfl, rfl, rfl, by simpa using hb, rfl, fun _ h => nomatch h⟩

theorem Inv.workerStep (h : Inv eng threshold batchSize p) :
    Inv eng threshold batchSize (p.workerStep eng threshold batchSize) := by
  unfold Pipeline.workerStep
  split
  · split
    · split
      · refine ⟨?_, ?_, ?_, ?_, h.calls_eq, h.rounds⟩ <;> dsimp only
        · rw [h.popped_eq, List.append_assoc]
        · rw [h.batchLogs_eq, List.map_append, List.map_singleton]
        · rw [h.collected_eq, List.length_append, List.length_singleton]
        · omega
      · exact { h with }
    · exact { h with }
  · have hb : 0 ≤ batchSize := by have := h.collected_le; omega
    split
    · have hr : p.thisRound = [] := List.eq_nil_of_length_eq_zero (h.collected_eq ▸ ‹_›)
      refine ⟨?_, h.batchLogs_eq, h.collected_eq, h.collected_le, ?_, ?_⟩ <;> dsimp only
      · simp [h.popped_eq, hr]
      · simp [h.calls_eq]
      · exact List.forall_mem_append.2 ⟨h.rounds, List.forall_mem_singleton.2 ⟨by simpa using hb, rfl⟩⟩
    · refine ⟨?_, rfl, rfl, by simpa using hb, ?_, ?_⟩ <;> dsimp only
      · simp [h.popped_eq]
      · simp [h.calls_eq]
      · refine List.forall_mem_append.2 ⟨h.rounds, List.forall_mem_singleton.2 ⟨?_, ?_⟩⟩
        · rw [← h.collected_eq]
          exact h.collected_le
        · simp only [h.batchLogs_eq, List.flatMap_map, Engines.logic_eq_expectedCalls]

theorem Inv.step (h : Inv eng threshold batchSize p) :
    ∀ a : Act, Inv eng threshold batchSize (p.step eng threshold batchSize a)
  | .push _ _ _ => { h with }
  | .worker => h.workerStep

theorem Inv.run : ∀ (acts : List Act) {p : Pipeline N α R}, Inv eng threshold batchSize p →
    Inv eng threshold batchSize (p.run eng threshold batchSize acts)
  | [], _, h => h
  | a :: acts, _, h => Inv.run acts (h.step a)

/-- Where the current iteration has popped nothing, the pops are the finished iterations' and the
calls are one block per popped event. -/
theorem Inv.boundary (h : Inv eng threshold batchSize p) (h0 : p.collected = 0) :
    p.popped = (p.rounds.map Prod.fst).flatten ∧
      p.calls = p.popped.flatMap fun e => eng.expectedCalls threshold (eng.process e) := by
  have hr : p.thisRound = [] := List.eq_nil_of_length_eq_zero (h.collected_eq ▸ h0)
  have hpop : p.popped = (p.rounds.map Prod.fst).flatten := by
    rw [h.popped_eq, hr, List.append_nil]
  exact ⟨hpop, by rw [h.calls_eq, hpop, flatten_rounds _ fun r hr => (h.rounds r hr).2]⟩

end Pipeline

theorem enqueued_flatMap (eng : Engines α R) (threshold : R) : ∀ es : List LogEvent,
    enqueued (es.flatMap fun e => eng.expectedCalls threshold (eng.process e)) =
      es.map fun e => (eng.enrich (eng.process e), eng.finalScore (eng.enrich (eng.process e)))
  | [] => rfl
  | e :: es => by
    rw [List.flatMap_cons, enqueued_append, enqueued_expectedCalls, enqueued_flatMap eng threshold es,
      List.map_cons, List.singleton_append]

def Engines.sample : Engines Unit Int :=
  ⟨fun _ => ⟨"h", (), "", 0, 0, []⟩, fun _ => none, fun _ => none, fun _ => 0⟩

end Logic

end Blackbox
