import Blackbox.Pipeline
import Blackbox.RingFifo

/-!
# From the producers to storage

Under any interleaving of producers' pushes with the processing worker's steps, the ring stays a
bounded FIFO queue (`Stores`): what it held when the worker started, then what the producers
pushed successfully, is what the worker popped, in order, followed by what the ring still holds
(`Pipeline.Flow`). So no event the worker pops is lost on the way to its logic loop: wherever the
worker stands between iterations, its calls are one block per popped event, in pop order, each
iteration having popped at most `BATCH_SIZE` of them (`processing_worker_batches`); from an empty
ring, every successful push has then reached storage once, in push order, except the newest few
still queued (`pushes_reach_storage`).
-/

namespace Blackbox

namespace Pipeline

variable {N : Nat} {α R : Type} {p : Pipeline N α R}

/-- The ring holds, oldest first, the payloads it held at the start (`q₀`) and those pushed since
that the worker has not popped. -/
def Flow (q₀ : List (List UInt8)) (p : Pipeline N α R) : Prop :=
  ∃ q, Stores p.ring q ∧ q₀ ++ p.pushed = p.popped.map LogEvent.payload ++ q

theorem flow_start {ring : RingBuffer N} {q₀ : List (List UInt8)} (h : Stores ring q₀)
    (rawEvent : LogEvent) : Flow q₀ (start ring rawEvent : Pipeline N α R) :=
  ⟨q₀, h, List.append_nil q₀⟩

variable [One R] [LT R] [DecidableRel (α := R) (· < ·)] {eng : Engines α R} {threshold : R}
  {batchSize : Int}

theorem Flow.workerStep {q₀ : List (List UInt8)} (h : Flow q₀ p) :
    Flow q₀ (p.workerStep eng threshold batchSize) := by
  obtain ⟨q, hs, hq⟩ := h
  unfold Pipeline.workerStep
  split
  · split
    · split
      · rename_i ev ring hpop
        obtain ⟨hok, hs'⟩ := pop_stores hs p.rawEvent
        rw [hpop] at hok hs'
        rcases q with _ | ⟨x, q⟩
        · simp [Fifo.pop] at hok
        · simp only [Fifo.pop, if_true, Option.some.injEq] at hok hs'
          exact ⟨q, hs', by simp [hq, hok]⟩
      · exact ⟨q, hs, hq⟩
    · exact ⟨q, hs, hq⟩
  · split <;> exact ⟨q, hs, hq⟩

theorem Flow.step {q₀ : List (List UInt8)} (h : Flow q₀ p) :
    ∀ a : Act, Flow q₀ (p.step eng threshold batchSize a)
  | .push now data len => by
    obtain ⟨q, hs, hq⟩ := h
    obtain ⟨hok, hs'⟩ := push_stores hs now data len
    refine ⟨_, hs', ?_⟩
    simp only [Pipeline.step, hok, Fifo.push]
    split <;> simp [← List.append_assoc, hq]
  | .worker => h.workerStep

theorem Flow.run {q₀ : List (List UInt8)} : ∀ (acts : List Act) {p : Pipeline N α R}, Flow q₀ p →
    Flow q₀ (p.run eng threshold batchSize acts)
  | [], _, h => h
  | a :: acts, _, h => Flow.run acts (h.step a)

end Pipeline

/-- From an empty ring, under any interleaving of pushes and worker steps: the successful pushes
are the payloads the worker popped, in order, then fewer than `N` still in the ring; and at an
iteration boundary storage has received exactly the popped events, in order, each with its
enriched parse and score. -/
theorem pushes_reach_storage {N : Nat} {α R : Type} [One R] [LT R] [DecidableRel (α := R) (· < ·)]
    (hN : 0 < N) (eng : Engines α R) (threshold : R) (batchSize : Int) (hb : 0 ≤ batchSize)
    (rawEvent : LogEvent) (acts : List Pipeline.Act) :
    let p := (Pipeline.start RingBuffer.init rawEvent : Pipeline N α R).run eng threshold
      batchSize acts
    ∃ q, p.pushed = p.popped.map LogEvent.payload ++ q ∧ q.length < N ∧
      (p.collected = 0 → enqueued p.calls = p.popped.map fun e =>
        (eng.enrich (eng.process e), eng.finalScore (eng.enrich (eng.process e)))) := by
  intro p
  have hf : Pipeline.Flow [] p := Pipeline.Flow.run acts (Pipeline.flow_start (stores_init hN) rawEvent)
  have h : Pipeline.Inv eng threshold batchSize p :=
    Pipeline.Inv.run acts (Pipeline.inv_start hb RingBuffer.init rawEvent)
  obtain ⟨q, hs, hq⟩ := hf
  exact ⟨q, hq, hs.length_lt, fun h0 => by rw [(h.boundary h0).2, enqueued_flatMap]⟩

theorem pushes_reach_storage_one :
    let p := (Pipeline.start RingBuffer.init LogEvent.blank : Pipeline 4 Unit Int).run
      Engines.sample 0 1 [.push 0 (fun _ => 7) 1, .worker, .worker, .worker]
    0 < 4 ∧ 0 ≤ (1 : Int) ∧ ∃ q, p.pushed = p.popped.map LogEvent.payload ++ q := by
  obtain ⟨q, hq, -⟩ := pushes_reach_storage (N := 4) (by decide) Engines.sample 0 1 (by decide)
    LogEvent.blank [.push 0 (fun _ => 7) 1, .worker, .worker, .worker]
  exact ⟨by decide, by decide, q, hq⟩

end Blackbox
