import Blackbox.RingFifo

/-!
# One producer and one consumer, access by access

`push` and `pop` cut at their shared-memory accesses, under sequentially consistent memory: the
producer loads `head_`, loads `tail_`, writes the slot's timestamp, its length and its bytes one
at a time, then stores `head_`; the consumer loads `tail_`, loads `head_`, copies the slot field
by field and byte by byte, then stores `tail_`. Any interleaving of the two threads is a list of
`Act`s.

`Inv` counts the pushes and pops completed so far (`H` and `T`): the indices are `H % N` and
`T % N`, the slots of pushes `T` to `H - 1` hold their payloads, and each thread's position says
how far its slot is written or copied. From it (`run_inv`), the producer never writes the slot
the consumer is copying (`writes_ne_popping`) and what the consumer pops is a prefix of what the
producer pushed (`spsc_safe`).
-/

namespace Blackbox

/-- Where the producer is in `push`. -/
inductive PushPc
  | idle | loadHead | loadTail | writeTs | writeLen | copy | storeHead
  deriving DecidableEq

/-- Where the consumer is in `pop`. -/
inductive PopPc
  | idle | loadTail | loadHead | copyTs | copyLen | copy | storeTail
  deriving DecidableEq

/-- The producer's registers: `push`'s arguments, `current_head`, the clock reading it wrote and
how many bytes `memcpy` has copied. -/
structure Producer where
  pc : PushPc
  data : Nat → UInt8
  len : Nat
  head : Nat
  now : Int
  j : Nat

/-- The consumer's registers: `current_tail`, the caller's `out_event` and how many payload bytes
the copy has done. -/
structure Consumer where
  pc : PopPc
  tail : Nat
  out : LogEvent
  j : Nat

/-- The shared ring, both threads, and the events of completed pushes and pops in order. -/
structure Sys (N : Nat) where
  ring : RingBuffer N
  prod : Producer
  cons : Consumer
  pushed : List (Int × List UInt8)
  popped : List (Int × List UInt8)

/-- A scheduler's choice. -/
inductive Act
  | push (data : Nat → UInt8) (len : Nat)
  | pop
  | producer (now : Int)
  | consumer

def LogEvent.event (e : LogEvent) : Int × List UInt8 := (e.timestampNs, e.payload)

namespace Sys

variable {N : Nat}

def init : Sys N :=
  ⟨RingBuffer.init, ⟨.idle, fun _ => 0, 0, 0, 0, 0⟩, ⟨.idle, 0, LogEvent.blank, 0⟩, [], []⟩

/-- The producer's next access; `now` is what the clock reads if it is the timestamp write. -/
def prodStep (s : Sys N) (now : Int) : Sys N :=
  let p := s.prod
  match p.pc with
  | .idle => s
  | .loadHead => { s with prod := { p with pc := .loadTail, head := s.ring.head } }
  | .loadTail =>
    if (p.head + 1) % N = s.ring.tail then { s with prod := { p with pc := .idle } }
    else { s with prod := { p with pc := .writeTs } }
  | .writeTs => { s with
      ring := s.ring.modify p.head fun e => { e with timestampNs := now }
      prod := { p with pc := .writeLen, now := now } }
  | .writeLen => { s with
      ring := s.ring.modify p.head fun e => { e with length := cappedLength p.len }
      prod := { p with pc := .copy, j := 0 } }
  | .copy =>
    if p.j < cappedLength p.len then { s with
      ring := s.ring.modify p.head fun e =>
        { e with rawData := Function.update e.rawData p.j (p.data p.j) }
      prod := { p with j := p.j + 1 } }
    else { s with prod := { p with pc := .storeHead } }
  | .storeHead => { s with
      ring := { s.ring with head := (p.head + 1) % N }
      prod := { p with pc := .idle }
      pushed := s.pushed ++ [(p.now, truncated p.data p.len)] }

/-- The consumer's next access. -/
def consStep (s : Sys N) : Sys N :=
  let c := s.cons
  match c.pc with
  | .idle => s
  | .loadTail => { s with cons := { c with pc := .loadHead, tail := s.ring.tail } }
  | .loadHead =>
    if c.tail = s.ring.head then { s with cons := { c with pc := .idle } }
    else { s with cons := { c with pc := .copyTs } }
  | .copyTs => { s with cons := { c with
      pc := .copyLen, out := { c.out with timestampNs := (s.ring.buffer c.tail).timestampNs } } }
  | .copyLen => { s with cons := { c with
      pc := .copy, j := 0, out := { c.out with length := (s.ring.buffer c.tail).length } } }
  | .copy =>
    if c.j < 4096 then { s with cons := { c with
      j := c.j + 1
      out := { c.out with
        rawData := Function.update c.out.rawData c.j ((s.ring.buffer c.tail).rawData c.j) } } }
    else { s with cons := { c with pc := .storeTail } }
  | .storeTail => { s with
      ring := { s.ring with tail := (c.tail + 1) % N }
      cons := { c with pc := .idle }
      popped := s.popped ++ [c.out.event] }

def step (s : Sys N) : Act → Sys N
  | .push data len =>
    if s.prod.pc = .idle then { s with prod := { s.prod with pc := .loadHead, data := data, len := len } }
    else s
  | .pop => if s.cons.pc = .idle then { s with cons := { s.cons with pc := .loadTail } } else s
  | .producer now => s.prodStep now
  | .consumer => s.consStep

def run (s : Sys N) (acts : List Act) : Sys N := acts.foldl step s

end Sys

/-- The slot the producer's next access writes, if it writes one. -/
def Producer.writes (p : Producer) : Option Nat :=
  match p.pc with
  | .writeTs | .writeLen => some p.head
  | .copy => if p.j < cappedLength p.len then some p.head else none
  | _ => none

/-- The slot of the pop in progress, from the consumer's load of `head_` to its store of `tail_`. -/
def Consumer.popping (c : Consumer) : Option Nat :=
  match c.pc with
  | .copyTs | .copyLen | .copy | .storeTail => some c.tail
  | _ => none

/-- The producer is past its full check, from the timestamp write to the store of `head_`. -/
def PushPc.claimed : PushPc → Bool
  | .writeTs | .writeLen | .copy | .storeHead => true
  | _ => false

/-- The consumer is past its empty check, from the timestamp copy to the store of `tail_`. -/
def PopPc.claimed : PopPc → Bool
  | .copyTs | .copyLen | .copy | .storeTail => true
  | _ => false

/-- How much of its slot the producer has written. -/
def Producer.Wrote (p : Producer) (slot : LogEvent) : Prop :=
  match p.pc with
  | .writeLen => slot.timestampNs = p.now
  | .copy => slot.timestampNs = p.now ∧ slot.length = cappedLength p.len ∧
      p.j ≤ cappedLength p.len ∧ ∀ k < p.j, slot.rawData k = p.data k
  | .storeHead => slot.timestampNs = p.now ∧ slot.length = cappedLength p.len ∧
      ∀ k < cappedLength p.len, slot.rawData k = p.data k
  | _ => True

/-- How much of its slot the consumer has copied into `out_event`. -/
def Consumer.Copied (c : Consumer) (slot : LogEvent) : Prop :=
  match c.pc with
  | .copyLen => c.out.timestampNs = slot.timestampNs
  | .copy => c.out.timestampNs = slot.timestampNs ∧ c.out.length = slot.length ∧ c.j ≤ 4096 ∧
      ∀ k < c.j, c.out.rawData k = slot.rawData k
  | .storeTail => c.out.timestampNs = slot.timestampNs ∧ c.out.length = slot.length ∧
      ∀ k < 4096, c.out.rawData k = slot.rawData k
  | _ => True

section Inv

variable {N : Nat}

/-- What the producer knows after `H` pushes and `T` pops: `current_head` is `H % N`, and once past
the full check its slot is not one the consumer may still read. -/
structure PInv (N : Nat) (p : Producer) (slot : LogEvent) (H T : Nat) : Prop where
  head_eq : p.pc = .loadTail ∨ p.pc.claimed → p.head = H % N
  room : p.pc.claimed → H + 2 ≤ T + N
  wrote : p.Wrote slot

/-- What the consumer knows after `H` pushes and `T` pops: `current_tail` is `T % N`, and once
past the empty check its slot holds push `T`. -/
structure CInv (N : Nat) (c : Consumer) (slot : LogEvent) (H T : Nat) : Prop where
  tail_eq : c.pc = .loadHead ∨ c.pc.claimed → c.tail = T % N
  nonempty : c.pc.claimed → T < H
  copied : c.Copied slot

/-- The invariant of every reachable state. -/
structure Inv (s : Sys N) : Prop where
  tail_eq : s.ring.tail = s.popped.length % N
  head_eq : s.ring.head = s.pushed.length % N
  popped_le : s.popped.length ≤ s.pushed.length
  pushed_lt : s.pushed.length < s.popped.length + N
  take_eq : s.popped = s.pushed.take s.popped.length
  short : ∀ e ∈ s.pushed, e.2.length ≤ 4096
  slot : ∀ i, s.popped.length ≤ i → ∀ h : i < s.pushed.length,
    (s.ring.buffer (i % N)).event = s.pushed[i]
  prod : PInv N s.prod (s.ring.buffer s.prod.head) s.pushed.length s.popped.length
  cons : CInv N s.cons (s.ring.buffer s.cons.tail) s.pushed.length s.popped.length

theorem mod_ne_of_lt_lap {i H : Nat} (h1 : i < H) (h2 : H < i + N) : i % N ≠ H % N := by
  have := add_mod_ne (N := N) (t := i) (Nat.sub_pos_of_lt h1) (by omega : H - i < N)
  rwa [Nat.add_zero, Nat.add_sub_cancel' h1.le] at this

theorem pInv_of_idle {p : Producer} {slot : LogEvent} {H T : Nat}
    (h : p.pc = .idle ∨ p.pc = .loadHead) : PInv N p slot H T := by
  rcases h with h | h <;>
    exact ⟨by simp [h, PushPc.claimed], by simp [h, PushPc.claimed], by simp [Producer.Wrote, h]⟩

theorem cInv_of_idle {c : Consumer} {slot : LogEvent} {H T : Nat}
    (h : c.pc = .idle ∨ c.pc = .loadTail) : CInv N c slot H T := by
  rcases h with h | h <;>
    exact ⟨by simp [h, PopPc.claimed], by simp [h, PopPc.claimed], by simp [Consumer.Copied, h]⟩

theorem PInv.mono {p : Producer} {slot : LogEvent} {H T T' : Nat} (h : PInv N p slot H T)
    (hT : T ≤ T') : PInv N p slot H T' :=
  ⟨h.head_eq, fun hc => (h.room hc).trans (by omega), h.wrote⟩

theorem Consumer.copied_of_not_claimed {c : Consumer} {slot : LogEvent} (h : c.pc.claimed = false) :
    c.Copied slot := by
  rcases hpc : c.pc <;> simp_all [Consumer.Copied, PopPc.claimed]

theorem CInv.frame {c : Consumer} {slot slot' : LogEvent} {H H' T : Nat} (h : CInv N c slot H T)
    (hH : H ≤ H') (hs : c.pc.claimed → slot' = slot) : CInv N c slot' H' T := by
  refine ⟨h.tail_eq, fun hc => (h.nonempty hc).trans_le hH, ?_⟩
  cases hc : c.pc.claimed
  · exact Consumer.copied_of_not_claimed hc
  · exact hs hc ▸ h.copied

theorem PInv.advance {p p' : Producer} {slot slot' : LogEvent} {H T : Nat} (h : PInv N p slot H T)
    (hc : p.pc.claimed) (hp : p'.head = p.head) (hw : p'.Wrote slot') : PInv N p' slot' H T :=
  ⟨fun _ => hp ▸ h.head_eq (Or.inr hc), fun _ => h.room hc, hw⟩

theorem CInv.advance {c c' : Consumer} {slot slot' : LogEvent} {H T : Nat} (h : CInv N c slot H T)
    (hc : c.pc.claimed) (ht : c'.tail = c.tail) (hw : c'.Copied slot') : CInv N c' slot' H T :=
  ⟨fun _ => ht ▸ h.tail_eq (Or.inr hc), fun _ => h.nonempty hc, hw⟩

theorem update_agree {f g : Nat → UInt8} {j : Nat} (h : ∀ k < j, f k = g k) :
    ∀ k < j + 1, Function.update f j (g j) k = g k := by
  intro k hk
  rcases Nat.lt_succ_iff_lt_or_eq.1 hk with hk | rfl
  · rw [Function.update_noteq hk.ne]
    exact h k hk
  · exact Function.update_same _ _ _

theorem Inv.with_prod {s : Sys N} (h : Inv s) {p : Producer}
    (hp : PInv N p (s.ring.buffer p.head) s.pushed.length s.popped.length) :
    Inv { s with prod := p } :=
  ⟨h.tail_eq, h.head_eq, h.popped_le, h.pushed_lt, h.take_eq, h.short, h.slot, hp, h.cons⟩

theorem Inv.with_cons {s : Sys N} (h : Inv s) {c : Consumer}
    (hc : CInv N c (s.ring.buffer c.tail) s.pushed.length s.popped.length) :
    Inv { s with cons := c } :=
  ⟨h.tail_eq, h.head_eq, h.popped_le, h.pushed_lt, h.take_eq, h.short, h.slot, h.prod, hc⟩

theorem Inv.write {s : Sys N} (h : Inv s) (hc : s.prod.pc.claimed) (f : LogEvent → LogEvent)
    {p : Producer} (hp : p.head = s.prod.head)
    (hP : PInv N p (f (s.ring.buffer s.prod.head)) s.pushed.length s.popped.length) :
    Inv { s with ring := s.ring.modify s.prod.head f, prod := p } := by
  have hH := h.prod.head_eq (Or.inr hc)
  have hroom := h.prod.room hc
  refine ⟨h.tail_eq, h.head_eq, h.popped_le, h.pushed_lt, h.take_eq, h.short,
    fun i hi hi' => ?_, ?_, h.cons.frame le_rfl fun hcc => ?_⟩
  · dsimp only at hi hi' ⊢
    have := h.pushed_lt
    rw [RingBuffer.modify_buffer_ne _ _ (hH ▸ mod_ne_of_lt_lap hi' (by omega))]
    exact h.slot i hi hi'
  · simpa only [hp, RingBuffer.modify_buffer_self] using hP
  · rw [h.cons.tail_eq (Or.inr hcc), hH]
    exact RingBuffer.modify_buffer_ne _ _ (mod_ne_of_lt_lap (h.cons.nonempty hcc) (by omega))

theorem prodStep_inv {s : Sys N} (h : Inv s) (now : Int) : Inv (s.prodStep now) := by
  have hP := h.prod
  rcases hpc : s.prod.pc
  · simpa only [Sys.prodStep, hpc] using h
  · -- load `head_`
    simp only [Sys.prodStep, hpc]
    exact h.with_prod ⟨fun _ => h.head_eq, by simp [PushPc.claimed], by simp [Producer.Wrote]⟩
  · -- load `tail_` and check for a full ring
    have hH := hP.head_eq (Or.inl hpc)
    simp only [Sys.prodStep, hpc]
    split
    · exact h.with_prod (pInv_of_idle (Or.inl rfl))
    · rename_i hfull
      refine h.with_prod ⟨fun _ => hH, fun _ => ?_, by simp [Producer.Wrote]⟩
      rw [hH, h.tail_eq, Nat.mod_add_mod] at hfull
      have := h.pushed_lt
      have := h.popped_le
      by_contra hlt
      exact hfull (by rw [show s.pushed.length + 1 = s.popped.length + N by omega,
        Nat.add_mod_right])
  · -- write the timestamp
    have hc : s.prod.pc.claimed := by simp [hpc, PushPc.claimed]
    simp only [Sys.prodStep, hpc]
    exact h.write hc _ rfl (hP.advance hc rfl (by simp [Producer.Wrote]))
  · -- write the length
    have hw : s.prod.Wrote _ := hP.wrote
    simp only [Producer.Wrote, hpc] at hw
    have hc : s.prod.pc.claimed := by simp [hpc, PushPc.claimed]
    simp only [Sys.prodStep, hpc]
    exact h.write hc _ rfl (hP.advance hc rfl (by simp [Producer.Wrote, hw]))
  · -- copy one byte, or finish the copy
    have hw : s.prod.Wrote _ := hP.wrote
    simp only [Producer.Wrote, hpc] at hw
    obtain ⟨hts, hlen, hj, hk⟩ := hw
    have hc : s.prod.pc.claimed := by simp [hpc, PushPc.claimed]
    simp only [Sys.prodStep, hpc]
    split
    · refine h.write hc _ rfl (hP.advance hc rfl ?_)
      simp only [Producer.Wrote, hpc]
      exact ⟨hts, hlen, ‹_›, update_agree hk⟩
    · refine h.with_prod (hP.advance hc rfl ?_)
      simp only [Producer.Wrote]
      exact ⟨hts, hlen, fun k hk' => hk k (by omega)⟩
  · -- store `head_`
    have hH := hP.head_eq (by simp [hpc, PushPc.claimed])
    have hroom := hP.room (by simp [hpc, PushPc.claimed])
    have hw : s.prod.Wrote _ := hP.wrote
    simp only [Producer.Wrote, hpc] at hw
    obtain ⟨hts, hlen, hk⟩ := hw
    have hev : (s.ring.buffer s.prod.head).event = (s.prod.now, truncated s.prod.data s.prod.len) := by
      simp only [LogEvent.event, LogEvent.payload, hts, hlen, truncated, ← cappedLength_eq_min]
      exact congrArg _ (bytes_congr hk)
    simp only [Sys.prodStep, hpc]
    have hlen' := h.popped_le
    refine ⟨h.tail_eq, ?_, by simp only [List.length_append, List.length_singleton]; omega,
      by simp only [List.length_append, List.length_singleton]; omega,
      by rw [List.take_append_of_le_length h.popped_le]; exact h.take_eq, ?_, ?_,
      pInv_of_idle (Or.inl rfl), h.cons.frame (by simp) fun _ => rfl⟩
    · simp only [hH, Nat.mod_add_mod, List.length_append, List.length_singleton]
    · intro e he
      rcases List.mem_append.1 he with he | he
      · exact h.short e he
      · rw [List.mem_singleton.1 he, truncated, bytes_length]
        exact Nat.min_le_right _ _
    · intro i hi hi'
      simp only [List.length_append, List.length_singleton] at hi'
      rcases Nat.lt_succ_iff_lt_or_eq.1 hi' with hi' | rfl
      · rw [List.getElem_append_left hi']
        exact h.slot i hi hi'
      · rw [List.getElem_concat_length _ _ _ rfl, ← hH]
        exact hev

theorem consStep_inv {s : Sys N} (h : Inv s) : Inv s.consStep := by
  have hC := h.cons
  rcases hpc : s.cons.pc
  · simpa only [Sys.consStep, hpc] using h
  · -- load `tail_`
    simp only [Sys.consStep, hpc]
    exact h.with_cons ⟨fun _ => h.tail_eq, by simp [PopPc.claimed], by simp [Consumer.Copied]⟩
  · -- load `head_` and check for an empty ring
    have hT := hC.tail_eq (Or.inl hpc)
    simp only [Sys.consStep, hpc]
    split
    · exact h.with_cons (cInv_of_idle (Or.inl rfl))
    · rename_i hempty
      refine h.with_cons ⟨fun _ => hT, fun _ => ?_, by simp [Consumer.Copied]⟩
      rw [hT, h.head_eq] at hempty
      have := h.popped_le
      exact lt_of_le_of_ne this fun he => hempty (by rw [he])
  · -- copy the timestamp
    have hc : s.cons.pc.claimed := by simp [hpc, PopPc.claimed]
    simp only [Sys.consStep, hpc]
    exact h.with_cons (hC.advance hc rfl (by simp [Consumer.Copied]))
  · -- copy the length
    have hw : s.cons.Copied _ := hC.copied
    simp only [Consumer.Copied, hpc] at hw
    have hc : s.cons.pc.claimed := by simp [hpc, PopPc.claimed]
    simp only [Sys.consStep, hpc]
    exact h.with_cons (hC.advance hc rfl (by simp [Consumer.Copied, hw]))
  · -- copy one byte, or finish the copy
    have hw : s.cons.Copied _ := hC.copied
    simp only [Consumer.Copied, hpc] at hw
    obtain ⟨hts, hlen, hj, hk⟩ := hw
    have hc : s.cons.pc.claimed := by simp [hpc, PopPc.claimed]
    simp only [Sys.consStep, hpc]
    split
    · refine h.with_cons (hC.advance hc rfl ?_)
      simp only [Consumer.Copied, hpc]
      exact ⟨hts, hlen, ‹_›, update_agree hk⟩
    · refine h.with_cons (hC.advance hc rfl ?_)
      simp only [Consumer.Copied]
      exact ⟨hts, hlen, fun k hk' => hk k (by omega)⟩
  · -- store `tail_`
    have hT := hC.tail_eq (by simp [hpc, PopPc.claimed])
    have hlt := hC.nonempty (by simp [hpc, PopPc.claimed])
    have hc : s.cons.Copied _ := hC.copied
    simp only [Consumer.Copied, hpc] at hc
    obtain ⟨hts, hlen, hk⟩ := hc
    have hslot := h.slot _ le_rfl hlt
    rw [← hT] at hslot
    have hshort : (s.ring.buffer s.cons.tail).length ≤ 4096 := by
      have := h.short _ (List.getElem_mem hlt)
      rwa [← hslot, LogEvent.event, LogEvent.payload, bytes_length] at this
    have hev : s.cons.out.event = s.pushed[s.popped.length] := by
      rw [← hslot, LogEvent.event, LogEvent.event, LogEvent.payload, LogEvent.payload, hts, hlen]
      exact congrArg _ (bytes_congr fun k hk' => hk k (by omega))
    have := h.pushed_lt
    simp only [Sys.consStep, hpc]
    refine ⟨?_, h.head_eq, by simp only [List.length_append, List.length_singleton]; omega,
      by simp only [List.length_append, List.length_singleton]; omega, ?_, h.short,
      fun i hi hi' => h.slot i (by simp only [List.length_append] at hi; omega) hi',
      h.prod.mono (by simp), cInv_of_idle (Or.inl rfl)⟩
    · simp only [hT, Nat.mod_add_mod, List.length_append, List.length_singleton]
    · simp only [List.length_append, List.length_singleton]
      rw [List.take_succ, List.getElem?_eq_getElem hlt, ← hev, ← h.take_eq]
      rfl

theorem step_inv {s : Sys N} (h : Inv s) : ∀ a : Act, Inv (s.step a)
  | .push data len => by
    simp only [Sys.step]
    split
    · exact h.with_prod (pInv_of_idle (Or.inr rfl))
    · exact h
  | .pop => by
    simp only [Sys.step]
    split
    · exact h.with_cons (cInv_of_idle (Or.inr rfl))
    · exact h
  | .producer now => prodStep_inv h now
  | .consumer => consStep_inv h

theorem inv_init (hN : 0 < N) : Inv (Sys.init : Sys N) := by
  refine ⟨by simp [Sys.init, RingBuffer.init], by simp [Sys.init, RingBuffer.init],
    le_rfl, by simpa [Sys.init] using hN, rfl, by simp [Sys.init], fun i hi hi' => absurd hi' (by simp [Sys.init]),
    pInv_of_idle (Or.inl rfl), cInv_of_idle (Or.inl rfl)⟩

theorem run_inv {s : Sys N} (h : Inv s) : ∀ acts : List Act, Inv (s.run acts)
  | [] => h
  | a :: acts => run_inv (step_inv h a) acts

/-- While the consumer copies a slot, the producer's next access never writes that slot. -/
theorem writes_ne_popping {s : Sys N} (h : Inv s) {i : Nat} (hw : s.prod.writes = some i) :
    s.cons.popping ≠ some i := by
  intro hp
  have hw' : i = s.prod.head ∧ s.prod.pc.claimed := by
    unfold Producer.writes at hw
    split at hw <;> (try split at hw) <;> simp_all [PushPc.claimed]
  have hp' : i = s.cons.tail ∧ s.cons.pc.claimed := by
    unfold Consumer.popping at hp
    split at hp <;> simp_all [PopPc.claimed]
  have hH := h.prod.head_eq (Or.inr hw'.2)
  have hroom := h.prod.room hw'.2
  have hT := h.cons.tail_eq (Or.inr hp'.2)
  have hlt := h.cons.nonempty hp'.2
  exact mod_ne_of_lt_lap hlt (by omega) (hT ▸ hH ▸ hp'.1 ▸ hw'.1)

end Inv

/-! ### A push or a pop run alone completes -/

namespace Sys

variable {N : Nat}

theorem run_append (s : Sys N) (as bs : List Act) : s.run (as ++ bs) = (s.run as).run bs :=
  List.foldl_append _ _ _ _

@[simp] theorem run_nil (s : Sys N) : s.run [] = s := rfl

theorem run_replicate_succ (s : Sys N) (a : Act) (k : Nat) :
    s.run (List.replicate (k + 1) a) = (s.step a).run (List.replicate k a) := rfl

theorem prod_copy (now : Int) : ∀ (k : Nat) (s : Sys N), s.prod.pc = .copy →
    s.prod.j + k = cappedLength s.prod.len →
    ∃ buf, s.run (List.replicate (k + 1) (.producer now)) =
      { s with ring := { s.ring with buffer := buf },
               prod := { s.prod with pc := .storeHead, j := cappedLength s.prod.len } }
  | 0, s, hpc, hj => ⟨s.ring.buffer, by
      have hj' : s.prod.j = cappedLength s.prod.len := hj
      rw [run_replicate_succ]
      simp only [step, prodStep, hpc, hj', Nat.lt_irrefl, if_false]
      rfl⟩
  | k + 1, s, hpc, hj => by
    have hlt : s.prod.j < cappedLength s.prod.len := by omega
    have hs : (s.step (.producer now)).prod = { s.prod with j := s.prod.j + 1 } := by
      simp only [step, prodStep, hpc, if_pos hlt]
    obtain ⟨buf, h⟩ := prod_copy now k (s.step (.producer now)) (by rw [hs]; exact hpc)
      (by rw [hs]; dsimp only; omega)
    refine ⟨buf, ?_⟩
    rw [run_replicate_succ, h]
    simp only [step, prodStep, hpc, if_pos hlt]
    rfl

theorem cons_copy : ∀ (k : Nat) (s : Sys N), s.cons.pc = .copy → s.cons.j + k = 4096 →
    ∃ out, s.run (List.replicate (k + 1) .consumer) =
      { s with cons := { s.cons with pc := .storeTail, j := 4096, out := out } }
  | 0, s, hpc, hj => ⟨s.cons.out, by
      have hj' : s.cons.j = 4096 := hj
      rw [run_replicate_succ]
      simp only [step, consStep, hpc, hj', Nat.lt_irrefl, if_false]
      rfl⟩
  | k + 1, s, hpc, hj => by
    have hlt : s.cons.j < 4096 := by omega
    have hs : (s.step .consumer).cons.pc = .copy ∧ (s.step .consumer).cons.j = s.cons.j + 1 := by
      simp only [step, consStep, hpc, if_pos hlt, and_self]
    obtain ⟨out, h⟩ := cons_copy k (s.step .consumer) hs.1 (by rw [hs.2]; omega)
    refine ⟨out, ?_⟩
    rw [run_replicate_succ, h]
    simp only [step, consStep, hpc, if_pos hlt]

/-- A push begun on a ring with room, run alone: `cappedLength len + 6` accesses of the producer
complete it, storing `head_` one slot on and recording its event; the consumer is untouched. -/
theorem push_completes (s : Sys N) (now : Int) (hpc : s.prod.pc = .loadHead)
    (hroom : (s.ring.head + 1) % N ≠ s.ring.tail) :
    ∃ buf, s.run (List.replicate (cappedLength s.prod.len + 6) (.producer now)) =
      { s with
        ring := ⟨(s.ring.head + 1) % N, s.ring.tail, buf⟩
        prod := { s.prod with
          pc := .idle, head := s.ring.head, now := now, j := cappedLength s.prod.len }
        pushed := s.pushed ++ [(now, truncated s.prod.data s.prod.len)] } := by
  have h₄ : (s.run (List.replicate 4 (.producer now))).prod =
      { s.prod with pc := .copy, head := s.ring.head, now := now, j := 0 } := by
    simp only [run_replicate_succ, step, prodStep, hpc, if_neg hroom]
    rfl
  obtain ⟨buf, h⟩ := prod_copy now (cappedLength s.prod.len) _ (by rw [h₄]) (by rw [h₄]; exact Nat.zero_add _)
  refine ⟨buf, ?_⟩
  rw [show cappedLength s.prod.len + 6 = 4 + (cappedLength s.prod.len + 1) + 1 by omega,
    List.replicate_add, List.replicate_add, run_append, run_append, h]
  simp only [run_replicate_succ, step, prodStep, hpc, if_neg hroom]
  rfl

/-- A pop begun on a non-empty ring, run alone: 4102 accesses of the consumer complete it, storing
`tail_` one slot on and recording the event it copied; the producer is untouched. -/
theorem pop_completes (s : Sys N) (hpc : s.cons.pc = .loadTail) (hne : s.ring.tail ≠ s.ring.head) :
    ∃ out : LogEvent, s.run (List.replicate 4102 .consumer) =
      { s with ring := { s.ring with tail := (s.ring.tail + 1) % N },
               cons := { s.cons with pc := .idle, tail := s.ring.tail, j := 4096, out := out },
               popped := s.popped ++ [out.event] } := by
  have h₄ : (s.run (List.replicate 4 .consumer)).cons.pc = .copy ∧
      (s.run (List.replicate 4 .consumer)).cons.j = 0 := by
    simp only [run_replicate_succ, List.replicate_zero, run_nil, step, consStep, hpc, if_neg hne,
      and_self]
  obtain ⟨out, h⟩ := cons_copy 4096 _ h₄.1 (by rw [h₄.2])
  refine ⟨out, ?_⟩
  rw [show 4102 = 4 + (4096 + 1) + 1 from rfl, List.replicate_add, List.replicate_add, run_append,
    run_append, h]
  simp only [run_replicate_succ, step, consStep, hpc, if_neg hne]
  rfl

end Sys

variable {N : Nat}

/-- Over every interleaving of one producer's pushes and one consumer's pops, access by access:
the producer never writes the slot of a pop between the consumer's load of `head_` and its
store of `tail_`, and the events the consumer has popped are, at every point, a prefix of the
truncated payloads of the completed pushes in push order. -/
theorem spsc_safe (hN : 0 < N) (acts : List Act) :
    (∀ i, ((Sys.init : Sys N).run acts).prod.writes = some i →
        ((Sys.init : Sys N).run acts).cons.popping ≠ some i) ∧
      ((Sys.init : Sys N).run acts).popped <+: ((Sys.init : Sys N).run acts).pushed := by
  have h := run_inv (inv_init hN) acts
  refine ⟨fun i hw => writes_ne_popping h hw, ?_⟩
  rw [h.take_eq]
  exact List.take_prefix _ _

def pushThenPop : List Act :=
  [.push (fun _ => 7) 1] ++ List.replicate 7 (.producer 5) ++ [.pop] ++ List.replicate 4102 .consumer

theorem spsc_safe_two :
    0 < 2 ∧ ((Sys.init : Sys 2).run pushThenPop).pushed = [(5, [7])] ∧
      ((Sys.init : Sys 2).run pushThenPop).popped = [(5, [7])] := by
  have hpush := Sys.push_completes ((Sys.init : Sys 2).step (.push (fun _ => 7) 1)) 5 rfl
    (by decide)
  rw [show cappedLength ((Sys.init : Sys 2).step (.push (fun _ => 7) 1)).prod.len + 6 = 7 from rfl]
    at hpush
  obtain ⟨buf, hpush⟩ := hpush
  obtain ⟨out, hpop⟩ := Sys.pop_completes
    ((((Sys.init : Sys 2).step (.push (fun _ => 7) 1)).run
      (List.replicate 7 (.producer 5))).step .pop) (by rw [hpush]; rfl)
    (by rw [hpush]; exact (by decide : (0 : Nat) ≠ 1))
  have hs : (Sys.init : Sys 2).run pushThenPop = ((((Sys.init : Sys 2).step
      (.push (fun _ => 7) 1)).run (List.replicate 7 (.producer 5))).step .pop).run
      (List.replicate 4102 .consumer) := by
    rw [pushThenPop, Sys.run_append, Sys.run_append, Sys.run_append]
    rfl
  rw [hpop, hpush] at hs
  have hpre := (spsc_safe (N := 2) (by decide) pushThenPop).2
  have hpushed : ((Sys.init : Sys 2).run pushThenPop).pushed = [(5, [7])] := by
    rw [hs]
    rfl
  have hlen : ((Sys.init : Sys 2).run pushThenPop).popped.length = 1 := by
    rw [hs]
    rfl
  refine ⟨by decide, hpushed, ?_⟩
  rw [List.prefix_iff_eq_take.1 hpre, hlen, hpushed]
  rfl

end Blackbox
