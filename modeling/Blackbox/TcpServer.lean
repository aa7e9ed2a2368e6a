import Blackbox.Lines

/-!
# TCP sessions

A `TcpSession` reads a chunk into `data_` (`async_read_some`) and runs `process_buffer` over it;
the ingest thread does this for any number of sessions in any order, all pushing into one ring.
Each session keeps `Tracks` over its own stream (`feed_tracks`): its sticky buffer never exceeds
8192 bytes nor holds a newline, and stays the bytes since the last newline while they are few
enough (`sticky_buffer_bounded`); its frames are one per newline it received, each a suffix of its
line and the whole line when that is at most 8192 bytes (`feed_fits`). The pushes themselves, made
into the ring the processing worker drains, are modelled in `Node`.
-/

namespace Blackbox

/-- Modelled from the spec: `max_length` of `tcp_server.h`, the size of `data_` (`READ_MAX`). -/
def maxLength : Nat := 4096

/-- A `TcpSession`: its read buffer `data_` and its `sticky_buffer_`. -/
structure TcpSession where
  data : List UInt8
  stickyBuffer : List UInt8

namespace TcpSession

/-- A session as its constructor leaves it, over whatever `data_` holds. -/
def fresh (data : List UInt8) : TcpSession := ⟨data, []⟩

@[simp] theorem fresh_stickyBuffer (data : List UInt8) : (fresh data).stickyBuffer = [] := rfl

/-- `async_read_some` completing with `chunk` in `data_`, then `process_buffer(chunk.size())`:
the pushes made and the session after, or `none` if a `substr` throws. -/
def receive (s : TcpSession) (chunk : List UInt8) : Option (List Frame × TcpSession) :=
  let data := chunk ++ s.data.drop chunk.length
  (processBuffer data s.stickyBuffer chunk.length).map fun r => (r.1, ⟨data, r.2⟩)

/-- Chunks read one after another: the bytes each push reads, in order, and the session after. -/
def feed (s : TcpSession) : List (List UInt8) → Option (List (List UInt8) × TcpSession)
  | [] => some ([], s)
  | c :: cs => (s.receive c).bind fun r =>
      (r.2.feed cs).map fun q => (r.1.map (Frame.bytes r.2.data) ++ q.1, q.2)

theorem receive_spec (s : TcpSession) (c : List UInt8) :
    ∃ fs s', s.receive c = some (fs, s') ∧
      fs.map (Frame.bytes s'.data) = (frames s.stickyBuffer c).1 ∧
      s'.stickyBuffer = keepShort (frames s.stickyBuffer c).2 ∧ ∀ f ∈ fs, f.InRange c.length := by
  obtain ⟨fs, hrun, hbytes, hin⟩ :=
    processBuffer_spec (c ++ s.data.drop c.length) s.stickyBuffer c.length
  rw [List.take_left] at hrun hbytes
  exact ⟨fs, ⟨c ++ s.data.drop c.length, keepShort (frames s.stickyBuffer c).2⟩,
    by simp only [receive, hrun, Option.map_some'], hbytes, rfl, hin⟩

theorem keepShort_length (s : List UInt8) : (keepShort s).length ≤ 8192 := by
  unfold keepShort
  split <;> simp_all

/-- Feeding chunks keeps the session tracking its stream, and never throws. -/
theorem feed_tracks : ∀ (cs : List (List UInt8)) (s : TcpSession) {F : List (List UInt8)}
    {S : List UInt8}, Tracks F s.stickyBuffer S → s.stickyBuffer.length ≤ 8192 →
    ∃ G s', s.feed cs = some (G, s') ∧ Tracks (F ++ G) s'.stickyBuffer (S ++ cs.flatten) ∧
      s'.stickyBuffer.length ≤ 8192
  | [], s, F, S, h, hl => ⟨[], s, rfl, by simpa using h, hl⟩
  | c :: cs, s, F, S, h, _ => by
    obtain ⟨fs, s₁, hr, hbytes, hsticky, -⟩ := receive_spec s c
    have h₁ : Tracks (F ++ fs.map (Frame.bytes s₁.data)) s₁.stickyBuffer (S ++ c) := by
      rw [hbytes, hsticky]
      exact (h.append_frames c).keep_short
    obtain ⟨G, s', hfeed, h', hl'⟩ :=
      feed_tracks cs s₁ h₁ (hsticky ▸ keepShort_length _)
    refine ⟨fs.map (Frame.bytes s₁.data) ++ G, s', ?_, by simpa using h', hl'⟩
    simp only [feed, hr, Option.some_bind, hfeed, Option.map_some']

end TcpSession

/-- After any chunks, the sticky buffer of a session holds at most 8192 bytes and no newline; it
is a suffix of the bytes received since the last newline, and all of them when they are at most
8192. -/
theorem sticky_buffer_bounded (data : List UInt8) (cs : List (List UInt8)) :
    ∃ F s, (TcpSession.fresh data).feed cs = some (F, s) ∧ s.stickyBuffer.length ≤ 8192 ∧
      newline ∉ s.stickyBuffer ∧ s.stickyBuffer <:+ pending cs.flatten ∧
      ((pending cs.flatten).length ≤ 8192 → s.stickyBuffer = pending cs.flatten) := by
  obtain ⟨F, s, hfeed, ⟨-, hsuf, hall⟩, hl⟩ :=
    TcpSession.feed_tracks cs (TcpSession.fresh data) tracks_nil (Nat.zero_le _)
  rw [List.nil_append] at hsuf hall
  exact ⟨F, s, hfeed, hl, fun hn => (join_lines _).2.2 (hsuf.subset hn), hsuf, hall⟩

theorem eq_of_forall₂_fits {F L : List (List UInt8)} (h : List.Forall₂ Fits F L)
    (hl : ∀ l ∈ L, l.length ≤ 8192) : F = L := by
  induction h with
  | nil => rfl
  | cons hf _ ih =>
    rw [hf.2 (hl _ (List.mem_cons_self _ _)), ih fun l hm => hl l (List.mem_cons_of_mem _ hm)]

theorem feed_fits (data : List UInt8) (cs : List (List UInt8)) :
    ∃ F s, (TcpSession.fresh data).feed cs = some (F, s) ∧ List.Forall₂ Fits F (lines cs.flatten) := by
  obtain ⟨F, s, hfeed, ⟨hF, -⟩, -⟩ :=
    TcpSession.feed_tracks cs (TcpSession.fresh data) tracks_nil (Nat.zero_le _)
  exact ⟨F, s, hfeed, by simpa using hF⟩

/-- The frames of session `sid` among frames tagged with their sessions, in order. -/
def attemptsOf (sid : Nat) (as : List (Nat × List UInt8)) : List (List UInt8) :=
  (as.filter fun a => a.1 = sid).map fun a => a.2

@[simp] theorem attemptsOf_nil (sid : Nat) : attemptsOf sid [] = [] := rfl

theorem attemptsOf_append (sid : Nat) (as bs : List (Nat × List UInt8)) :
    attemptsOf sid (as ++ bs) = attemptsOf sid as ++ attemptsOf sid bs := by
  simp [attemptsOf]

theorem attemptsOf_map (sid sid₀ : Nat) (xs : List (List UInt8)) :
    attemptsOf sid (xs.map fun x => (sid₀, x)) = if sid₀ = sid then xs else [] := by
  by_cases h : sid₀ = sid <;> simp [attemptsOf, h, List.filter_map, Function.comp_def]

end Blackbox
