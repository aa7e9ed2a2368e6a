import Mathlib.Logic.Function.Basic
import Mathlib.Data.List.Range

/-!
# The ring buffer

`RingBuffer<Capacity>` of `ingest/ring_buffer.cpp`: `Capacity` slots of `LogEvent`, a write
index `head` that only `push` moves and a read index `tail` that only `pop` moves. A slot keeps
its whole payload array; `push` copies over its first `length` bytes and leaves the rest as it
was, so the bytes an event carries are its first `length` ones (`LogEvent.payload`).

A pointer the source reads through is a function from offsets to bytes.
-/

namespace Blackbox

/-- A slot of the ring, as `push` writes it and `pop` copies it out. -/
structure LogEvent where
  timestampNs : Int
  length : Nat
  rawData : Nat → UInt8

def bytes (src : Nat → UInt8) (n : Nat) : List UInt8 := (List.range n).map src

def memcpy (dst src : Nat → UInt8) (n : Nat) : Nat → UInt8 :=
  fun i => if i < n then src i else dst i

/-- What `push(data, len)` stores: the first `min len 4096` bytes of `data`. -/
def truncated (data : Nat → UInt8) (len : Nat) : List UInt8 := bytes data (min len 4096)

/-- `slot.length` as `push` sets it: `(len > 4096) ? 4096 : len`. -/
def cappedLength (len : Nat) : Nat := if len > 4096 then 4096 else len

theorem cappedLength_eq_min (len : Nat) : cappedLength len = min len 4096 := by
  unfold cappedLength; split <;> omega

def ptr (s : List UInt8) : Nat → UInt8 := fun i => s.getD i 0

namespace LogEvent

def payload (e : LogEvent) : List UInt8 := bytes e.rawData e.length

def blank : LogEvent := ⟨0, 0, fun _ => 0⟩

end LogEvent

theorem bytes_length (src : Nat → UInt8) (n : Nat) : (bytes src n).length = n := by
  simp [bytes]

theorem bytes_congr {f g : Nat → UInt8} {n : Nat} (h : ∀ i < n, f i = g i) :
    bytes f n = bytes g n :=
  List.map_congr_left fun i hi => h i (List.mem_range.1 hi)

theorem bytes_memcpy (dst src : Nat → UInt8) (n : Nat) : bytes (memcpy dst src n) n = bytes src n :=
  bytes_congr fun _ hi => if_pos hi

theorem bytes_ptr_append (s t : List UInt8) : bytes (ptr (s ++ t)) s.length = s := by
  apply List.ext_getElem (bytes_length _ _)
  intro _ h _
  rw [bytes_length] at h
  simp [bytes, ptr, List.getD_eq_getElem?_getD, List.getElem?_append_left h,
    List.getElem?_eq_getElem h]

@[simp] theorem bytes_ptr (s : List UInt8) : bytes (ptr s) s.length = s := by
  simpa using bytes_ptr_append s []

theorem ptr_add (s : List UInt8) (k i : Nat) : ptr s (k + i) = ptr (s.drop k) i := by
  simp [ptr, List.getD_eq_getElem?_getD]

theorem truncated_of_le {s : List UInt8} (h : s.length ≤ 4096) :
    truncated (ptr s) s.length = s := by
  rw [truncated, Nat.min_eq_left h, bytes_ptr]

/-- `RingBuffer<N>` with its two indices and its slots. -/
structure RingBuffer (N : Nat) where
  head : Nat
  tail : Nat
  buffer : Nat → LogEvent

namespace RingBuffer

variable {N : Nat}

def init : RingBuffer N := ⟨0, 0, fun _ => LogEvent.blank⟩

/-- The slot `push` fills: the clock reading, the capped length and the copied bytes over what
the slot held. -/
def fill (slot : LogEvent) (now : Int) (data : Nat → UInt8) (len : Nat) : LogEvent :=
  ⟨now, cappedLength len, memcpy slot.rawData data (cappedLength len)⟩

def modify (rb : RingBuffer N) (i : Nat) (f : LogEvent → LogEvent) : RingBuffer N :=
  { rb with buffer := Function.update rb.buffer i (f (rb.buffer i)) }

@[simp] theorem modify_head (rb : RingBuffer N) (i : Nat) (f : LogEvent → LogEvent) :
    (rb.modify i f).head = rb.head := rfl

@[simp] theorem modify_tail (rb : RingBuffer N) (i : Nat) (f : LogEvent → LogEvent) :
    (rb.modify i f).tail = rb.tail := rfl

@[simp] theorem modify_buffer_self (rb : RingBuffer N) (i : Nat) (f : LogEvent → LogEvent) :
    (rb.modify i f).buffer i = f (rb.buffer i) := Function.update_same _ _ _

theorem modify_buffer_ne (rb : RingBuffer N) {i k : Nat} (f : LogEvent → LogEvent) (h : k ≠ i) :
    (rb.modify i f).buffer k = rb.buffer k := Function.update_noteq h _ _

/-- `RingBuffer::push`. `now` is what `high_resolution_clock::now()` returns. -/
def push (rb : RingBuffer N) (now : Int) (data : Nat → UInt8) (len : Nat) :
    Bool × RingBuffer N :=
  let nextHead := (rb.head + 1) % N
  if nextHead = rb.tail then (false, rb)
  else (true, { rb with
    buffer := Function.update rb.buffer rb.head (fill (rb.buffer rb.head) now data len)
    head := nextHead })

/-- `RingBuffer::pop` with its out-parameter: the result, then `out_event` and the ring. -/
def pop (rb : RingBuffer N) (out : LogEvent) : Bool × LogEvent × RingBuffer N :=
  if rb.tail = rb.head then (false, out, rb)
  else (true, rb.buffer rb.tail, { rb with tail := (rb.tail + 1) % N })

theorem fill_payload (slot : LogEvent) (now : Int) (data : Nat → UInt8) (len : Nat) :
    (fill slot now data len).payload = truncated data len := by
  simp only [fill, LogEvent.payload, truncated, cappedLength_eq_min, bytes_memcpy]

theorem push_of_full {rb : RingBuffer N} {now : Int} {data : Nat → UInt8} {len : Nat}
    (h : (rb.head + 1) % N = rb.tail) : rb.push now data len = (false, rb) := if_pos h

theorem push_of_not_full {rb : RingBuffer N} {now : Int} {data : Nat → UInt8} {len : Nat}
    (h : (rb.head + 1) % N ≠ rb.tail) : rb.push now data len = (true, { rb with
      buffer := Function.update rb.buffer rb.head (fill (rb.buffer rb.head) now data len)
      head := (rb.head + 1) % N }) := if_neg h

theorem pop_of_empty {rb : RingBuffer N} {out : LogEvent} (h : rb.tail = rb.head) :
    rb.pop out = (false, out, rb) := if_pos h

theorem pop_of_ne {rb : RingBuffer N} {out : LogEvent} (h : rb.tail ≠ rb.head) :
    rb.pop out = (true, rb.buffer rb.tail, { rb with tail := (rb.tail + 1) % N }) := if_neg h

theorem push_fst_eq_false {rb : RingBuffer N} {now : Int} {data : Nat → UInt8} {len : Nat} :
    (rb.push now data len).1 = false ↔ (rb.head + 1) % N = rb.tail := by
  by_cases hf : (rb.head + 1) % N = rb.tail
  · simp [push_of_full hf, hf]
  · simp [push_of_not_full hf, hf]

theorem pop_fst_eq_false {rb : RingBuffer N} {out : LogEvent} :
    (rb.pop out).1 = false ↔ rb.tail = rb.head := by
  by_cases he : rb.tail = rb.head
  · simp [pop_of_empty he, he]
  · simp [pop_of_ne he, he]

theorem push_false {rb : RingBuffer N} {now : Int} {data : Nat → UInt8} {len : Nat}
    (h : (rb.push now data len).1 = false) : (rb.push now data len).2 = rb := by
  by_cases hf : (rb.head + 1) % N = rb.tail
  · rw [push_of_full hf]
  · rw [push_of_not_full hf] at h
    cases h

theorem pop_false {rb : RingBuffer N} {out : LogEvent} (h : (rb.pop out).1 = false) :
    (rb.pop out).2 = (out, rb) := by
  by_cases he : rb.tail = rb.head
  · rw [pop_of_empty he]
  · rw [pop_of_ne he] at h
    cases h

end RingBuffer

end Blackbox
