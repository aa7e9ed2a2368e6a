import Blackbox.TcpServer

/-!
# Frames under different chunkings

The sticky buffer is dropped only when a chunk ends with no newline and the buffer has grown
past 8192 bytes, so where the chunk boundaries fall decides what is left of a longer line:
9000 bytes of `A` and a newline come out as the whole line when cut 4096/4096/809, and as an
empty frame when cut 4000/4000/1000/1 (`frames_depend_on_chunking`). What does not depend on the
chunking (`frames_agree_on_short_lines`): the number of frames, one per newline, and every frame
whose line is at most 8192 bytes.
-/

namespace Blackbox

namespace TcpSession

theorem feed_cons_fst (s : TcpSession) (c : List UInt8) (cs : List (List UInt8)) :
    ∃ s' : TcpSession, s'.stickyBuffer = keepShort (frames s.stickyBuffer c).2 ∧
      (s.feed (c :: cs)).map Prod.fst =
        (s'.feed cs).map fun q => (frames s.stickyBuffer c).1 ++ q.1 := by
  obtain ⟨fs, s₁, hr, hbytes, hsticky, -⟩ := receive_spec s c
  refine ⟨s₁, hsticky, ?_⟩
  simp only [feed, hr, Option.some_bind, Option.map_map, Function.comp_def, hbytes]

theorem feed_cons_partial (s : TcpSession) {c : List UInt8} (h : newline ∉ c)
    (cs : List (List UInt8)) : ∃ s' : TcpSession, s'.stickyBuffer = keepShort (s.stickyBuffer ++ c) ∧
      (s.feed (c :: cs)).map Prod.fst = (s'.feed cs).map Prod.fst := by
  obtain ⟨s', hs, hf⟩ := feed_cons_fst s c cs
  rw [frames_of_not_mem _ h] at hs hf
  exact ⟨s', hs, by simpa using hf⟩

theorem feed_cons_line (s : TcpSession) {c : List UInt8} (h : newline ∉ c)
    (cs : List (List UInt8)) : ∃ s' : TcpSession, s'.stickyBuffer = [] ∧
      (s.feed ((c ++ [newline]) :: cs)).map Prod.fst =
        (s'.feed cs).map fun q => (s.stickyBuffer ++ c) :: q.1 := by
  obtain ⟨s', hs, hf⟩ := feed_cons_fst s (c ++ [newline]) cs
  rw [frames_line _ _ h] at hs hf
  exact ⟨s', hs, by simpa using hf⟩

end TcpSession

theorem newline_not_mem_replicate (n : Nat) : newline ∉ List.replicate n (65 : UInt8) :=
  fun h => absurd (List.mem_replicate.1 h).2 (by decide)

/-- 9000 bytes of `A` and a newline, cut 4096/4096/809 and
4000/4000/1000/1, both within the 4096-byte reads, push the whole line in one case and an empty
frame in the other. -/
theorem frames_depend_on_chunking :
    [List.replicate 4096 65, List.replicate 4096 65, List.replicate 808 65 ++ [newline]].flatten =
        [List.replicate 4000 65, List.replicate 4000 65, List.replicate 1000 65, [newline]].flatten ∧
      (∀ c ∈ [List.replicate 4096 65, List.replicate 4096 65, List.replicate 808 65 ++ [newline]],
        c.length ≤ maxLength) ∧
      (∀ c ∈ [List.replicate 4000 65, List.replicate 4000 65, List.replicate 1000 65, [newline]],
        c.length ≤ maxLength) ∧
      ((TcpSession.fresh (List.replicate maxLength 0)).feed
          [List.replicate 4096 65, List.replicate 4096 65, List.replicate 808 65 ++ [newline]]).map
          Prod.fst = some [List.replicate 9000 65] ∧
      ((TcpSession.fresh (List.replicate maxLength 0)).feed
          [List.replicate 4000 65, List.replicate 4000 65, List.replicate 1000 65, [newline]]).map
          Prod.fst = some [[]] := by
  refine ⟨by simp only [List.flatten, List.append_nil, ← List.append_assoc, ← List.replicate_add],
    ?_, ?_, ?_, ?_⟩
  · simp only [List.forall_mem_cons, List.length_replicate, List.length_append,
      List.length_singleton, List.not_mem_nil, false_implies, implies_true, and_true, maxLength]
    omega
  · simp only [List.forall_mem_cons, List.length_replicate, List.length_singleton,
      List.not_mem_nil, false_implies, implies_true, and_true, maxLength]
    omega
  · obtain ⟨s₁, h₁, e₁⟩ := TcpSession.feed_cons_partial _ (newline_not_mem_replicate 4096) _
    obtain ⟨s₂, h₂, e₂⟩ := TcpSession.feed_cons_partial s₁ (newline_not_mem_replicate 4096) _
    obtain ⟨s₃, -, e₃⟩ := TcpSession.feed_cons_line s₂ (newline_not_mem_replicate 808) []
    have hs₂ : s₂.stickyBuffer = List.replicate 8192 65 := by
      rw [h₂, h₁, TcpSession.fresh_stickyBuffer, List.nil_append,
        show keepShort (List.replicate 4096 (65 : UInt8)) = List.replicate 4096 65 from
          if_neg (by rw [List.length_replicate]; decide), ← List.replicate_add]
      exact if_neg (by rw [List.length_replicate]; exact Nat.lt_irrefl _)
    rw [e₁, e₂, e₃, hs₂, ← List.replicate_add]
    rfl
  · obtain ⟨s₁, h₁, e₁⟩ := TcpSession.feed_cons_partial _ (newline_not_mem_replicate 4000) _
    obtain ⟨s₂, h₂, e₂⟩ := TcpSession.feed_cons_partial s₁ (newline_not_mem_replicate 4000) _
    obtain ⟨s₃, h₃, e₃⟩ := TcpSession.feed_cons_partial s₂ (newline_not_mem_replicate 1000) _
    obtain ⟨s₄, -, e₄⟩ := TcpSession.feed_cons_line s₃ (List.not_mem_nil newline) []
    rw [List.nil_append] at e₄
    have hs₃ : s₃.stickyBuffer = [] := by
      rw [h₃, h₂, h₁, TcpSession.fresh_stickyBuffer, List.nil_append,
        show keepShort (List.replicate 4000 (65 : UInt8)) = List.replicate 4000 65 from
          if_neg (by rw [List.length_replicate]; decide), ← List.replicate_add,
        show keepShort (List.replicate (4000 + 4000) (65 : UInt8)) = List.replicate 8000 65 from
          if_neg (by rw [List.length_replicate]; decide), ← List.replicate_add]
      exact if_pos (by rw [List.length_replicate]; decide)
    rw [e₁, e₂, e₃, e₄, hs₃]
    rfl

theorem getElem?_of_forall₂_fits {F L : List (List UInt8)} (h : List.Forall₂ Fits F L) :
    ∀ {k : Nat} {l : List UInt8}, L[k]? = some l → l.length ≤ 8192 → F[k]? = some l := by
  induction h with
  | nil => intro k l hl; simp at hl
  | cons hf _ ih =>
    intro k l hl hs
    cases k with
    | zero =>
      simp only [List.getElem?_cons_zero, Option.some.injEq] at hl ⊢
      subst hl
      exact hf.2 hs
    | succ k => simpa using ih (by simpa using hl) hs

/-- Two chunkings of one stream, fed to fresh sessions: as many frames each, one per newline,
the same frame at every position whose line is at most 8192 bytes, and the same frames outright
when no line is longer. -/
theorem frames_agree_on_short_lines (data₁ data₂ : List UInt8) (cs ds : List (List UInt8))
    (h : cs.flatten = ds.flatten) :
    ∃ (F G : List (List UInt8)) (s t : TcpSession), (TcpSession.fresh data₁).feed cs = some (F, s) ∧
      (TcpSession.fresh data₂).feed ds = some (G, t) ∧
      F.length = cs.flatten.count newline ∧ G.length = cs.flatten.count newline ∧
      (∀ (k : Nat) (l : List UInt8), (lines cs.flatten)[k]? = some l → l.length ≤ 8192 →
        F[k]? = some l ∧ G[k]? = some l) ∧
      ((∀ l ∈ lines cs.flatten, l.length ≤ 8192) → F = G) := by
  obtain ⟨F, s, hF, hFf⟩ := feed_fits data₁ cs
  obtain ⟨G, t, hG, hGf⟩ := feed_fits data₂ ds
  rw [← h] at hGf
  refine ⟨F, G, s, t, hF, hG, hFf.length_eq.trans (lines_length _),
    hGf.length_eq.trans (lines_length _),
    fun k l hl hs => ⟨getElem?_of_forall₂_fits hFf hl hs, getElem?_of_forall₂_fits hGf hl hs⟩,
    fun hs => (eq_of_forall₂_fits hFf hs).trans (eq_of_forall₂_fits hGf hs).symm⟩

theorem frames_agree_on_short_lines_split :
    [[1], [2, newline]].flatten = [[1, 2, newline]].flatten ∧
      ∃ (F G : List (List UInt8)) (s t : TcpSession),
        (TcpSession.fresh []).feed [[1], [2, newline]] = some (F, s) ∧
        (TcpSession.fresh []).feed [[1, 2, newline]] = some (G, t) ∧
        F.length = [[1], [2, newline]].flatten.count newline :=
  ⟨rfl, by
    obtain ⟨F, G, s, t, hF, hG, hl, -⟩ :=
      frames_agree_on_short_lines [] [] [[1], [2, newline]] [[1, 2, newline]] rfl
    exact ⟨F, G, s, t, hF, hG, hl⟩⟩

end Blackbox
