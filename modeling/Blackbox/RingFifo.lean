import Blackbox.RingBuffer
import Mathlib.Data.Nat.ModEq

/-!
# The ring is a bounded FIFO

Run one operation at a time, `RingBuffer<N>` behaves as a queue of truncated payloads that holds
at most `N - 1` of them. `Stores rb q` says where each queued payload sits: the `i`-th in slot
`(tail + i) % N`, with `head` just past the last. `push_stores` and `pop_stores` show that each
operation answers as the queue does and keeps `Stores`, and `ring_refines_fifo` carries this
along every sequence of operations from a fresh ring.
-/

namespace Blackbox

/-- An operation on the ring, with the arguments the caller passes. -/
inductive Op
  | push (now : Int) (data : Nat → UInt8) (len : Nat)
  | pop

/-- What an operation answers: `push`'s result, or the payload a successful `pop` copied out. -/
inductive Answer
  | pushed (ok : Bool)
  | popped (p : Option (List UInt8))
  deriving DecidableEq

namespace Fifo

/-- Append unless `cap` payloads are queued. -/
def push (cap : Nat) (q : List (List UInt8)) (p : List UInt8) : Bool × List (List UInt8) :=
  if q.length = cap then (false, q) else (true, q ++ [p])

/-- Take the oldest payload, if any. -/
def pop : List (List UInt8) → Option (List UInt8) × List (List UInt8)
  | [] => (none, [])
  | p :: q => (some p, q)

def step (cap : Nat) (q : List (List UInt8)) : Op → Answer × List (List UInt8)
  | .push _ data len => ((.pushed (push cap q (truncated data len)).1),
      (push cap q (truncated data len)).2)
  | .pop => (.popped (pop q).1, (pop q).2)

def run (cap : Nat) (q : List (List UInt8)) : List Op → List Answer × List (List UInt8)
  | [] => ([], q)
  | op :: ops => ((step cap q op).1 :: (run cap (step cap q op).2 ops).1,
      (run cap (step cap q op).2 ops).2)

end Fifo

namespace RingBuffer

variable {N : Nat}

/-- One operation on the ring and the consumer's `out_event`. -/
def step (s : RingBuffer N × LogEvent) : Op → Answer × (RingBuffer N × LogEvent)
  | .push now data len => (.pushed (s.1.push now data len).1, ((s.1.push now data len).2, s.2))
  | .pop => (.popped (if (s.1.pop s.2).1 then some (s.1.pop s.2).2.1.payload else none),
      ((s.1.pop s.2).2.2, (s.1.pop s.2).2.1))

def run (s : RingBuffer N × LogEvent) : List Op → List Answer × (RingBuffer N × LogEvent)
  | [] => ([], s)
  | op :: ops => ((step s op).1 :: (run (step s op).2 ops).1, (run (step s op).2 ops).2)

end RingBuffer

section Index

variable {N : Nat}

theorem add_mod_ne {t i j : Nat} (hij : i < j) (hj : j < N) : (t + i) % N ≠ (t + j) % N :=
  fun h => hij.ne ((Nat.ModEq.add_left_cancel' t h).eq_of_lt_of_lt (hij.trans hj) hj)

theorem add_succ_mod_eq_iff {t k : Nat} (ht : t < N) (hk : k < N) :
    (t + k + 1) % N = t ↔ k + 1 = N := by
  constructor
  · intro h
    by_contra hne
    have h2 : (t + 0) % N ≠ (t + (k + 1)) % N := add_mod_ne (Nat.succ_pos k) (by omega)
    rw [Nat.add_zero, Nat.mod_eq_of_lt ht, ← Nat.add_assoc, h] at h2
    exact h2 rfl
  · intro h
    rw [Nat.add_assoc, h, Nat.add_mod_right, Nat.mod_eq_of_lt ht]

theorem add_mod_eq_self_iff {t k : Nat} (ht : t < N) (hk : k < N) : (t + k) % N = t ↔ k = 0 := by
  constructor
  · intro h
    by_contra hne
    have h2 : (t + 0) % N ≠ (t + k) % N := add_mod_ne (Nat.pos_of_ne_zero hne) hk
    rw [Nat.add_zero, Nat.mod_eq_of_lt ht, h] at h2
    exact h2 rfl
  · rintro rfl
    exact Nat.mod_eq_of_lt ht

end Index

section Stores

variable {N : Nat} {rb : RingBuffer N} {q : List (List UInt8)}

/-- `rb` holds the queue `q`. -/
structure Stores (rb : RingBuffer N) (q : List (List UInt8)) : Prop where
  tail_lt : rb.tail < N
  length_lt : q.length < N
  head_eq : rb.head = (rb.tail + q.length) % N
  slot : ∀ i (h : i < q.length), (rb.buffer ((rb.tail + i) % N)).payload = q[i]

theorem stores_init (hN : 0 < N) : Stores (RingBuffer.init : RingBuffer N) [] :=
  ⟨hN, hN, (Nat.mod_eq_of_lt hN).symm, fun _ h => absurd h (Nat.not_lt_zero _)⟩

theorem Stores.head_lt (h : Stores rb q) : rb.head < N :=
  h.head_eq ▸ Nat.mod_lt _ (Nat.zero_lt_of_lt h.tail_lt)

theorem Stores.count (h : Stores rb q) : (rb.head + N - rb.tail) % N = q.length := by
  have ht := h.tail_lt
  have hl := h.length_lt
  rw [h.head_eq]
  by_cases hw : rb.tail + q.length < N
  · rw [Nat.mod_eq_of_lt hw, show rb.tail + q.length + N - rb.tail = q.length + N by omega,
      Nat.add_mod_right, Nat.mod_eq_of_lt hl]
  · have e : (rb.tail + q.length) % N = rb.tail + q.length - N := by
      rw [Nat.mod_eq_sub_mod (Nat.le_of_not_lt hw), Nat.mod_eq_of_lt (by omega)]
    rw [e, show rb.tail + q.length - N + N - rb.tail = q.length by omega, Nat.mod_eq_of_lt hl]

theorem Stores.full_iff (h : Stores rb q) : (rb.head + 1) % N = rb.tail ↔ q.length = N - 1 := by
  rw [h.head_eq, Nat.mod_add_mod, add_succ_mod_eq_iff h.tail_lt h.length_lt]
  have := h.length_lt
  omega

theorem Stores.empty_iff (h : Stores rb q) : rb.tail = rb.head ↔ q = [] := by
  rw [h.head_eq, eq_comm, add_mod_eq_self_iff h.tail_lt h.length_lt, List.length_eq_zero]

theorem Stores.front {p : List UInt8} (h : Stores rb (p :: q)) : (rb.buffer rb.tail).payload = p := by
  have h0 := h.slot 0 (Nat.succ_pos _)
  rwa [Nat.add_zero, Nat.mod_eq_of_lt h.tail_lt] at h0

theorem push_stores (h : Stores rb q) (now : Int) (data : Nat → UInt8) (len : Nat) :
    (rb.push now data len).1 = (Fifo.push (N - 1) q (truncated data len)).1 ∧
      Stores (rb.push now data len).2 (Fifo.push (N - 1) q (truncated data len)).2 := by
  by_cases hf : q.length = N - 1
  · rw [RingBuffer.push_of_full (h.full_iff.2 hf), Fifo.push, if_pos hf]
    exact ⟨rfl, h⟩
  rw [RingBuffer.push_of_not_full (mt h.full_iff.1 hf), Fifo.push, if_neg hf]
  dsimp only
  have hl := h.length_lt
  refine ⟨rfl, h.tail_lt, by simp only [List.length_append, List.length_singleton]; omega, ?_, ?_⟩
  · simp only [h.head_eq, Nat.mod_add_mod, List.length_append, List.length_singleton,
      Nat.add_assoc]
  · intro i hi
    dsimp only
    simp only [List.length_append, List.length_singleton] at hi
    rcases Nat.lt_succ_iff_lt_or_eq.1 hi with hi | rfl
    · have hne : (rb.tail + i) % N ≠ rb.head := by rw [h.head_eq]; exact add_mod_ne hi hl
      rw [List.getElem_append_left hi, Function.update_noteq hne, h.slot i hi]
    · rw [List.getElem_concat_length _ _ _ rfl, ← h.head_eq, Function.update_same,
        RingBuffer.fill_payload]

theorem pop_stores (h : Stores rb q) (out : LogEvent) :
    (if (rb.pop out).1 then some (rb.pop out).2.1.payload else none) = (Fifo.pop q).1 ∧
      Stores (rb.pop out).2.2 (Fifo.pop q).2 := by
  rcases q with _ | ⟨p, q⟩
  · rw [RingBuffer.pop_of_empty (h.empty_iff.2 rfl)]
    exact ⟨rfl, h⟩
  rw [RingBuffer.pop_of_ne (mt h.empty_iff.1 (List.cons_ne_nil p q))]
  simp only [Fifo.pop, ↓reduceIte]
  have hl := h.length_lt
  have ht := h.tail_lt
  simp only [List.length_cons] at hl
  refine ⟨congrArg some h.front, Nat.mod_lt _ (by omega), by omega, ?_, fun i hi => ?_⟩
  · rw [h.head_eq, List.length_cons, Nat.mod_add_mod]
    congr 1
    omega
  · rw [Nat.mod_add_mod, Nat.add_assoc, Nat.add_comm 1 i]
    exact h.slot (i + 1) (by simp only [List.length_cons]; omega)

/-- What a ring holding `q` does on the next operation. -/
theorem Stores.next (h : Stores rb q) :
    rb.head < N ∧ rb.tail < N ∧ (rb.head + N - rb.tail) % N = q.length ∧
      (∀ now data len, (rb.push now data len).1 = false ↔ q.length = N - 1) ∧
      (∀ now data len, (rb.push now data len).1 = false → (rb.push now data len).2 = rb) ∧
      (∀ o, (rb.pop o).1 = false ↔ q = []) ∧
      (∀ o, (rb.pop o).1 = false → (rb.pop o).2 = (o, rb)) ∧
      (∀ o p q', q = p :: q' → (rb.pop o).2.1.payload = p) := by
  refine ⟨h.head_lt, h.tail_lt, h.count, fun _ _ _ => RingBuffer.push_fst_eq_false.trans h.full_iff,
    fun _ _ _ => RingBuffer.push_false, fun _ => RingBuffer.pop_fst_eq_false.trans h.empty_iff,
    fun _ => RingBuffer.pop_false, fun o p q' hq => ?_⟩
  subst hq
  rw [RingBuffer.pop_of_ne (mt h.empty_iff.1 (List.cons_ne_nil p q'))]
  exact h.front

end Stores

variable {N : Nat}

/-- The ring and the queue answer alike at every step, and the ring keeps holding the queue. -/
theorem run_stores {s : RingBuffer N × LogEvent} {q : List (List UInt8)} (h : Stores s.1 q) :
    ∀ ops : List Op, (RingBuffer.run s ops).1 = (Fifo.run (N - 1) q ops).1 ∧
      Stores (RingBuffer.run s ops).2.1 (Fifo.run (N - 1) q ops).2
  | [] => ⟨rfl, h⟩
  | .push now data len :: ops => by
    obtain ⟨h1, h2⟩ := push_stores h now data len
    have := run_stores (s := ((s.1.push now data len).2, s.2)) h2 ops
    simp only [RingBuffer.run, Fifo.run, RingBuffer.step, Fifo.step, h1]
    exact ⟨congrArg _ this.1, this.2⟩
  | .pop :: ops => by
    obtain ⟨h1, h2⟩ := pop_stores h s.2
    have := run_stores (s := ((s.1.pop s.2).2.2, (s.1.pop s.2).2.1)) h2 ops
    simp only [RingBuffer.run, Fifo.run, RingBuffer.step, Fifo.step, h1]
    exact ⟨congrArg _ this.1, this.2⟩

/-- From a fresh ring, every sequence of operations answers as a FIFO of capacity `N - 1` over
the truncated payloads; in the state reached the indices are in range and count the queue, a
push fails exactly when the queue is full and then changes nothing, and a pop fails exactly
when it is empty and then changes neither the ring nor `out_event`, and otherwise copies out
the oldest queued payload. -/
theorem ring_refines_fifo (hN : 0 < N) (out : LogEvent) (ops : List Op) :
    let rb := (RingBuffer.run ((RingBuffer.init : RingBuffer N), out) ops).2.1
    let q := (Fifo.run (N - 1) [] ops).2
    (RingBuffer.run ((RingBuffer.init : RingBuffer N), out) ops).1 = (Fifo.run (N - 1) [] ops).1 ∧
      rb.head < N ∧ rb.tail < N ∧ (rb.head + N - rb.tail) % N = q.length ∧
      (∀ now data len, (rb.push now data len).1 = false ↔ q.length = N - 1) ∧
      (∀ now data len, (rb.push now data len).1 = false → (rb.push now data len).2 = rb) ∧
      (∀ o, (rb.pop o).1 = false ↔ q = []) ∧
      (∀ o, (rb.pop o).1 = false → (rb.pop o).2 = (o, rb)) ∧
      (∀ o p q', q = p :: q' → (rb.pop o).2.1.payload = p) := by
  obtain ⟨hans, h⟩ := run_stores (s := ((RingBuffer.init : RingBuffer N), out)) (stores_init hN) ops
  exact ⟨hans, h.next⟩

theorem ring_refines_fifo_two :
    let ops : List Op := [.push 0 (fun _ => 7) 1, .push 0 (fun _ => 8) 1, .pop]
    0 < 2 ∧ (RingBuffer.run ((RingBuffer.init : RingBuffer 2), LogEvent.blank) ops).1 =
      (Fifo.run 1 [] ops).1 :=
  ⟨by decide, (ring_refines_fifo (by decide) _ _).1⟩

example : (Fifo.run 1 [] [.push 0 (fun _ => 7) 1, .push 0 (fun _ => 8) 1, .pop]).1 =
    [.pushed true, .pushed false, .popped (some [7])] := by decide

end Blackbox
