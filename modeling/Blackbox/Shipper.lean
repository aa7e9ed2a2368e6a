import Blackbox.Chunking

/-!
# The sentry's stream through a core session

`TcpClient` of `blackbox-sentry` writes, on connecting, the handshake `"HELLO AGENT_ID=" + id +
"\n"` through `send_log`, which appends a newline of its own, and then each log line with its
newline, in call order. A core `TcpSession` fed that stream in any chunks pushes the handshake
line, then an empty frame from the doubled newline, then the lines (`shipped_frames`).
-/

namespace Blackbox

def helloPrefix : List UInt8 := "HELLO AGENT_ID=".toList.map Char.toUInt8

/-- A sentry `TcpClient`: its agent id, `connected_`, and the bytes written to the socket so far,
in call order. -/
structure TcpClient where
  agentId : List UInt8
  connected : Bool
  written : List UInt8

namespace TcpClient

/-- `TcpClient::send_log`. -/
def sendLog (c : TcpClient) (logLine : List UInt8) : TcpClient :=
  if !c.connected then c else { c with written := c.written ++ (logLine ++ [newline]) }

/-- The completion handler of `async_connect` in `do_connect`, on success. -/
def connect (c : TcpClient) : TcpClient :=
  let c := { c with connected := true }
  c.sendLog (helloPrefix ++ c.agentId ++ [newline])

def sendAll (c : TcpClient) (ls : List (List UInt8)) : TcpClient := ls.foldl sendLog c

theorem sendAll_written (c : TcpClient) (hc : c.connected) :
    ∀ ls : List (List UInt8),
      (c.sendAll ls).written = c.written ++ ls.flatMap (· ++ [newline])
  | [] => by simp [sendAll]
  | l :: ls => by
    have := sendAll_written { c with written := c.written ++ (l ++ [newline]) } hc ls
    simp only [sendAll, List.foldl_cons, sendLog, hc, Bool.not_true, Bool.false_eq_true,
      ↓reduceIte] at this ⊢
    simpa using this

end TcpClient

/-- The stream the sentry writes for agent `id` and lines `ls` after a successful connect. -/
def shipped (id : List UInt8) (ls : List (List UInt8)) : List UInt8 :=
  ((TcpClient.connect ⟨id, false, []⟩).sendAll ls).written

theorem shipped_eq (id : List UInt8) (ls : List (List UInt8)) :
    shipped id ls = ((helloPrefix ++ id) :: [] :: ls).flatMap (· ++ [newline]) := by
  rw [shipped, TcpClient.sendAll_written _ (by simp [TcpClient.connect, TcpClient.sendLog])]
  simp [TcpClient.connect, TcpClient.sendLog]

theorem frames_flatMap : ∀ (ls : List (List UInt8)), (∀ l ∈ ls, newline ∉ l) →
    frames [] (ls.flatMap (· ++ [newline])) = (ls, [])
  | [], _ => rfl
  | l :: ls, h => by
    rw [List.flatMap_cons, List.append_assoc, List.singleton_append,
      frames_line _ _ (h l (List.mem_cons_self _ _)),
      frames_flatMap ls fun l hl => h l (List.mem_cons_of_mem _ hl)]
    simp

/-- Lines that hold no newline and are at most 8192 bytes, with the handshake, shipped and cut
into any chunks: the session pushes the handshake line, an empty frame, and the lines. -/
theorem shipped_frames (data id : List UInt8) (ls : List (List UInt8))
    (hid : newline ∉ id) (hidl : (helloPrefix ++ id).length ≤ 8192)
    (hls : ∀ l ∈ ls, newline ∉ l ∧ l.length ≤ 8192)
    (cs : List (List UInt8)) (hcs : cs.flatten = shipped id ls) :
    ((TcpSession.fresh data).feed cs).map Prod.fst = some ((helloPrefix ++ id) :: [] :: ls) := by
  have hnl : ∀ l ∈ (helloPrefix ++ id) :: [] :: ls, newline ∉ l := by
    intro l hl
    simp only [List.mem_cons] at hl
    rcases hl with rfl | rfl | hl
    · simp only [List.mem_append, not_or]
      exact ⟨by decide, hid⟩
    · exact List.not_mem_nil _
    · exact (hls l hl).1
  have hlines : lines cs.flatten = (helloPrefix ++ id) :: [] :: ls := by
    rw [hcs, shipped_eq, lines, frames_flatMap _ hnl]
  obtain ⟨F, s, hF, hfits⟩ := feed_fits data cs
  rw [hlines] at hfits
  rw [hF, eq_of_forall₂_fits hfits fun l hl => ?_]
  · rfl
  simp only [List.mem_cons] at hl
  rcases hl with rfl | rfl | hl
  · exact hidl
  · simp
  · exact (hls l hl).2

/-- Agent `a` with no log lines, its handshake read in one chunk: the session pushes the
handshake line and then an empty frame. -/
theorem handshake_empty_frame :
    ((TcpSession.fresh (List.replicate maxLength 0)).feed [shipped [97] []]).map Prod.fst =
      some [helloPrefix ++ [97], []] :=
  shipped_frames _ [97] [] (by decide) (by decide) (by simp) _ (by simp)

end Blackbox
