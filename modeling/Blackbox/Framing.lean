import Blackbox.RingBuffer

/-!
# Newline framing

`TcpSession::process_buffer` of `ingest/tcp_server.cpp`: the chunk just read is scanned for
`'\n'`; each newline ends a frame, pushed straight out of `data_` when the sticky buffer is
empty and stitched onto it otherwise, and what follows the last newline is appended to the sticky
buffer, which is dropped whole once it holds more than 8192 bytes.

`frames cur xs` is the same framing one byte at a time, with `cur` the partial frame so far.
`processBuffer_spec` shows the loop never has a `substr` throw, reads every direct push inside
the chunk, and pushes exactly the frames of `frames` over the chunk, leaving its rest, cut by
`keepShort`, as the new sticky buffer.
-/

namespace Blackbox

def newline : UInt8 := 10

def findFrom (c : UInt8) : List UInt8 → Nat → Option Nat
  | [], _ => none
  | b :: bs, i => if b = c then some i else findFrom c bs (i + 1)

/-- `std::string_view::find(c, pos)`, with `none` for `npos`. -/
def find (s : List UInt8) (c : UInt8) (pos : Nat) : Option Nat := findFrom c (s.drop pos) pos

/-- `std::string_view::substr(pos, count)`, with `none` where it throws `std::out_of_range`.
`substr(pos)` is `substr s pos (s.length - pos)`. -/
def substr (s : List UInt8) (pos count : Nat) : Option (List UInt8) :=
  if pos ≤ s.length then some ((s.drop pos).take count) else none

theorem findFrom_bounds {c : UInt8} : ∀ {xs : List UInt8} {i k : Nat}, findFrom c xs i = some k →
    i ≤ k ∧ k < i + xs.length
  | [], _, _, h => by simp [findFrom] at h
  | b :: bs, i, k, h => by
    simp only [findFrom] at h
    split at h
    · cases h; simp
    · have := findFrom_bounds h
      simp only [List.length_cons]
      omega

/-- A push `process_buffer` makes: `push(data_ + start_pos, msg_len)` on the zero-copy path, or
`push(sticky_buffer_.data(), sticky_buffer_.size())` after stitching. -/
inductive Frame
  | direct (start_pos msg_len : Nat)
  | stitched (sticky : List UInt8)

namespace Frame

def ptr (data : List UInt8) : Frame → Nat → UInt8
  | .direct pos _ => fun i => Blackbox.ptr data (pos + i)
  | .stitched s => Blackbox.ptr s

def len : Frame → Nat
  | .direct _ n => n
  | .stitched s => s.length

def bytes (data : List UInt8) (f : Frame) : List UInt8 := Blackbox.bytes (f.ptr data) f.len

/-- The push reads inside `data_[0, n)`, or reads the sticky buffer. -/
def InRange (n : Nat) : Frame → Prop
  | .direct pos len => pos + len ≤ n
  | .stitched _ => True

end Frame

/-- The loop of `process_buffer` from `start_pos` over the chunk, with the sticky buffer as it
stands: the pushes made from here on and the sticky buffer left. -/
def processFrom (chunk sticky : List UInt8) (start_pos : Nat) : Option (List Frame × List UInt8) :=
  match _h : find chunk newline start_pos with
  | none => (substr chunk start_pos (chunk.length - start_pos)).map fun rest =>
      ([], if (sticky ++ rest).length > 8192 then [] else sticky ++ rest)
  | some newline_pos =>
    let msg_len := newline_pos - start_pos
    if sticky.isEmpty then
      (processFrom chunk sticky (newline_pos + 1)).map fun r =>
        (.direct start_pos msg_len :: r.1, r.2)
    else
      (substr chunk start_pos msg_len).bind fun part =>
        (processFrom chunk [] (newline_pos + 1)).map fun r =>
          (.stitched (sticky ++ part) :: r.1, r.2)
termination_by chunk.length + 1 - start_pos
decreasing_by
  all_goals
    simp only [find] at _h
    have := findFrom_bounds _h
    rw [List.length_drop] at this
    omega

/-- `TcpSession::process_buffer(bytes_transferred)` over the read buffer `data_` and the sticky
buffer: the pushes it makes and the sticky buffer it leaves, or `none` if a `substr` throws. -/
def processBuffer (data sticky : List UInt8) (bytes_transferred : Nat) :
    Option (List Frame × List UInt8) :=
  processFrom (data.take bytes_transferred) sticky 0

/-- Framing byte by byte: each newline ends the frame `cur`, other bytes extend it. The frames
ended, and the partial frame left. -/
def frames (cur : List UInt8) : List UInt8 → List (List UInt8) × List UInt8
  | [] => ([], cur)
  | b :: bs =>
    if b = newline then (cur :: (frames [] bs).1, (frames [] bs).2) else frames (cur ++ [b]) bs

/-- The sticky buffer after the size check: dropped whole past 8192 bytes. -/
def keepShort (s : List UInt8) : List UInt8 := if s.length > 8192 then [] else s

section Find

theorem findFrom_none {c : UInt8} : ∀ {xs : List UInt8} {i : Nat}, findFrom c xs i = none → c ∉ xs
  | [], _, _ => List.not_mem_nil c
  | b :: bs, i, h => by
    simp only [findFrom] at h
    split at h
    · cases h
    · rename_i hb
      exact List.not_mem_cons_of_ne_of_not_mem (Ne.symm hb) (findFrom_none h)

theorem findFrom_some {c : UInt8} : ∀ {xs : List UInt8} {i k : Nat}, findFrom c xs i = some k →
    ∃ pre post, xs = pre ++ c :: post ∧ c ∉ pre ∧ k = i + pre.length
  | [], _, _, h => by simp [findFrom] at h
  | b :: bs, i, k, h => by
    simp only [findFrom] at h
    split at h
    · rename_i hb
      cases h
      exact ⟨[], bs, by rw [hb]; rfl, List.not_mem_nil c, rfl⟩
    · rename_i hb
      obtain ⟨pre, post, rfl, hc, rfl⟩ := findFrom_some h
      refine ⟨b :: pre, post, rfl, List.not_mem_cons_of_ne_of_not_mem (Ne.symm hb) hc, ?_⟩
      simp only [List.length_cons]
      omega

end Find

section Frames

@[simp] theorem frames_nil (cur : List UInt8) : frames cur [] = ([], cur) := rfl

theorem frames_newline (cur bs : List UInt8) :
    frames cur (newline :: bs) = (cur :: (frames [] bs).1, (frames [] bs).2) := if_pos rfl

theorem frames_byte {b : UInt8} (hb : b ≠ newline) (cur bs : List UInt8) :
    frames cur (b :: bs) = frames (cur ++ [b]) bs := if_neg hb

theorem frames_of_not_mem : ∀ {xs : List UInt8} (cur : List UInt8), newline ∉ xs →
    frames cur xs = ([], cur ++ xs)
  | [], cur, _ => by simp
  | b :: bs, cur, h => by
    rw [frames_byte (List.ne_of_not_mem_cons h).symm, frames_of_not_mem _ (List.not_mem_of_not_mem_cons h)]
    simp

theorem frames_line {pre : List UInt8} (cur post : List UInt8) (h : newline ∉ pre) :
    frames cur (pre ++ newline :: post) = ((cur ++ pre) :: (frames [] post).1, (frames [] post).2) := by
  induction pre generalizing cur with
  | nil => simpa using frames_newline cur post
  | cons b bs ih =>
    rw [List.cons_append, frames_byte (List.ne_of_not_mem_cons h).symm, ih _ (List.not_mem_of_not_mem_cons h)]
    simp

theorem frames_append : ∀ (xs ys cur : List UInt8),
    frames cur (xs ++ ys) = ((frames cur xs).1 ++ (frames (frames cur xs).2 ys).1,
      (frames (frames cur xs).2 ys).2)
  | [], ys, cur => by simp
  | b :: bs, ys, cur => by
    by_cases hb : b = newline
    · subst hb
      rw [List.cons_append, frames_newline, frames_newline, frames_append bs ys []]
      simp
    · rw [List.cons_append, frames_byte hb, frames_byte hb, frames_append bs ys]

end Frames

section Spec

theorem find_some {s : List UInt8} {pos k : Nat} (h : find s newline pos = some k) :
    ∃ pre, s.drop pos = pre ++ newline :: s.drop (k + 1) ∧ newline ∉ pre ∧ k = pos + pre.length ∧
      k < s.length := by
  obtain ⟨pre, post, hs, hn, rfl⟩ := findFrom_some h
  have hpost : s.drop (pos + pre.length + 1) = post := by
    rw [show s.drop (pos + pre.length + 1) = (s.drop pos).drop (pre.length + 1) by
      rw [List.drop_drop, Nat.add_assoc], hs]
    simp
  have hlen := congrArg List.length hs
  simp only [List.length_drop, List.length_append, List.length_cons] at hlen
  exact ⟨pre, hpost ▸ hs, hn, rfl, by omega⟩

theorem direct_bytes {chunk pre rest : List UInt8} {pos : Nat} (h : chunk.drop pos = pre ++ rest) :
    (Frame.direct pos pre.length).bytes chunk = pre := by
  simp only [Frame.bytes, Frame.ptr, Frame.len, ptr_add, h, bytes_ptr_append]

theorem stitched_bytes (data s : List UInt8) : (Frame.stitched s).bytes data = s := by
  simp [Frame.bytes, Frame.ptr, Frame.len]

theorem processFrom_of_none {chunk sticky : List UInt8} {start : Nat}
    (h : find chunk newline start = none) :
    processFrom chunk sticky start = (substr chunk start (chunk.length - start)).map fun rest =>
      ([], if (sticky ++ rest).length > 8192 then [] else sticky ++ rest) := by
  rw [processFrom]
  split <;> simp_all

theorem processFrom_of_some {chunk sticky : List UInt8} {start k : Nat}
    (h : find chunk newline start = some k) :
    processFrom chunk sticky start =
      if sticky.isEmpty then
        (processFrom chunk sticky (k + 1)).map fun r => (.direct start (k - start) :: r.1, r.2)
      else
        (substr chunk start (k - start)).bind fun part =>
          (processFrom chunk [] (k + 1)).map fun r => (.stitched (sticky ++ part) :: r.1, r.2) := by
  rw [processFrom]
  split <;> simp_all

/-- The loop from `start`: no `substr` throws, every direct push reads inside the chunk, and the
pushes read exactly the frames of what is left of the chunk, the sticky buffer first. -/
theorem processFrom_spec (chunk : List UInt8) : ∀ (sticky : List UInt8) (start : Nat),
    start ≤ chunk.length → ∃ fs, processFrom chunk sticky start =
      some (fs, keepShort (frames sticky (chunk.drop start)).2) ∧
      fs.map (Frame.bytes chunk) = (frames sticky (chunk.drop start)).1 ∧
      ∀ f ∈ fs, f.InRange chunk.length := by
  intro sticky start
  induction sticky, start using processFrom.induct chunk with
  | case1 sticky start hf =>
    intro hs
    rw [frames_of_not_mem _ (findFrom_none hf), processFrom_of_none hf, substr, if_pos hs,
      List.take_of_length_le (by simp)]
    exact ⟨[], rfl, rfl, by simp⟩
  | case2 sticky start k hf he ih =>
    intro _
    obtain ⟨pre, hpre, hn, rfl, hk⟩ := find_some hf
    obtain ⟨fs, hrun, hbytes, hin⟩ := ih hk
    obtain rfl : sticky = [] := List.isEmpty_iff.1 he
    refine ⟨.direct start pre.length :: fs, ?_, ?_, List.forall_mem_cons.2 ⟨hk.le, hin⟩⟩
    · rw [processFrom_of_some hf, if_pos he, hrun, Nat.add_sub_cancel_left]
      simp only [Option.map_some', hpre, frames_line _ _ hn]
    · simp only [List.map_cons, hbytes, hpre, frames_line _ _ hn, List.nil_append,
        direct_bytes hpre]
  | case3 sticky start k hf he ih =>
    intro _
    obtain ⟨pre, hpre, hn, rfl, hk⟩ := find_some hf
    obtain ⟨fs, hrun, hbytes, hin⟩ := ih hk
    have hsub : substr chunk start pre.length = some pre := by
      rw [substr, if_pos (by omega), hpre, List.take_left]
    refine ⟨.stitched (sticky ++ pre) :: fs, ?_, ?_, List.forall_mem_cons.2 ⟨trivial, hin⟩⟩
    · rw [processFrom_of_some hf, if_neg he, Nat.add_sub_cancel_left, hsub, Option.some_bind, hrun]
      simp only [Option.map_some', hpre, frames_line _ _ hn]
    · simp only [List.map_cons, hbytes, hpre, frames_line _ _ hn, stitched_bytes]

theorem Frame.bytes_take {data : List UInt8} {n : Nat} {f : Frame}
    (h : f.InRange (data.take n).length) : f.bytes (data.take n) = f.bytes data := by
  cases f with
  | direct pos len =>
    refine bytes_congr fun i hi => ?_
    simp only [Frame.InRange, Frame.len] at h hi
    have : pos + i < n := by simp only [List.length_take] at h; omega
    simp [Frame.ptr, Blackbox.ptr, List.getD_eq_getElem?_getD, List.getElem?_take, this]
  | stitched s => rfl

/-- `process_buffer(n)`: no `substr` throws, every direct push reads inside `data_[0, n)`, and the
pushes read the frames of the sticky buffer followed by the chunk `data_[0, n)`; the sticky
buffer left is the partial frame after the last newline, unless it is over 8192 bytes. -/
theorem processBuffer_spec (data sticky : List UInt8) (n : Nat) :
    ∃ fs, processBuffer data sticky n = some (fs, keepShort (frames sticky (data.take n)).2) ∧
      fs.map (Frame.bytes data) = (frames sticky (data.take n)).1 ∧ ∀ f ∈ fs, f.InRange n := by
  obtain ⟨fs, hrun, hbytes, hin⟩ := processFrom_spec (data.take n) sticky 0 (Nat.zero_le _)
  rw [List.drop_zero] at hrun hbytes
  refine ⟨fs, hrun, ?_, fun f hf => ?_⟩
  · rw [← hbytes]
    exact List.map_congr_left fun f hf => (Frame.bytes_take (hin f hf)).symm
  · have := hin f hf
    cases f with
    | direct pos len => simp only [Frame.InRange, List.length_take] at this ⊢; omega
    | stitched s => trivial

end Spec

end Blackbox
