import Blackbox.Shipper

/-!
# The sentry's writes in flight

`TcpClient::send_log` starts an `async_write` of its line and returns; nothing waits for the
previous write to finish. Boost.Asio carries out an `async_write` as a series of
`async_write_some` operations, which the reactor performs in the order they were started, each
writing as many bytes as the socket takes; after a partial write the rest is started anew, behind
the operations started in the meantime.

So long as a message is handed over only when no write is in flight, the socket carries the stream
of the sequential model `TcpClient` (`sentry_serial_writes_ship`). A line sent while the
handshake is still in flight lands inside it whenever the socket takes the handshake in part:
the socket's next byte is then the line's, whatever follows, and the core does not read the
handshake as its first frame (`sentry_burst_splits_handshake`).
-/

namespace Blackbox

/-- The sentry's client with its writes in flight: the agent id, `connected_`, and the reactor's
queue of `async_write_some` operations, each with the `async_write` it belongs to and the bytes it
has left; and, as history the code does not keep, each byte the socket has sent with the
`async_write` it came from, and the messages handed to `async_write`, in call order. -/
structure Sentry where
  agentId : List UInt8
  connected : Bool
  queue : List (Nat × List UInt8)
  sent : List (Nat × UInt8)
  issued : List (List UInt8)

namespace Sentry

/-- The constructor: not connected, nothing written. -/
def create (agentId : List UInt8) : Sentry := ⟨agentId, false, [], [], []⟩

def wire (s : Sentry) : List UInt8 := s.sent.map Prod.snd

/-- `TcpClient::send_log`: when connected, start an `async_write` of the line and a newline. -/
def sendLog (s : Sentry) (logLine : List UInt8) : Sentry :=
  if !s.connected then s
  else { s with
    queue := s.queue ++ [(s.issued.length, logLine ++ [newline])],
    issued := s.issued ++ [logLine ++ [newline]] }

/-- The completion handler of `async_connect` in `do_connect`: on success mark the client
connected and send the handshake, on failure mark it not connected. -/
def onConnect (s : Sentry) (ok : Bool) : Sentry :=
  if ok then { s with connected := true }.sendLog (helloPrefix ++ s.agentId ++ [newline])
  else { s with connected := false }

/-- The reactor performs the first queued `async_write_some` and the socket takes `n` bytes of it;
taking none, the operation stays queued. Done, its `async_write` completes; otherwise the rest is
started anew, behind the operations queued since. -/
def written (s : Sentry) (n : Nat) : Sentry :=
  match s.queue with
  | [] => s
  | (j, bytes) :: rest =>
    if n = 0 then s
    else { s with
      sent := s.sent ++ (bytes.take n).map fun b => (j, b),
      queue := if bytes.length ≤ n then rest else rest ++ [(j, bytes.drop n)] }

/-- What can happen next: a `send_log` call, the completion of a connect, or a write. -/
inductive Act
  | sendLog (logLine : List UInt8)
  | connected (ok : Bool)
  | written (n : Nat)

def step (s : Sentry) : Act → Sentry
  | .sendLog logLine => s.sendLog logLine
  | .connected ok => s.onConnect ok
  | .written n => s.written n

def run (s : Sentry) (acts : List Act) : Sentry := acts.foldl step s

@[simp] theorem run_nil (s : Sentry) : s.run [] = s := rfl

@[simp] theorem run_cons (s : Sentry) (a : Act) (acts : List Act) :
    s.run (a :: acts) = (s.step a).run acts := rfl

theorem run_append (s : Sentry) (acts acts' : List Act) :
    s.run (acts ++ acts') = (s.run acts).run acts' := List.foldl_append _ _ _ _

theorem written_whole {s : Sentry} {j : Nat} {bytes : List UInt8} {rest : List (Nat × List UInt8)}
    (hq : s.queue = (j, bytes) :: rest) {n : Nat} (hn : bytes.length ≤ n) (h0 : n ≠ 0) :
    s.written n = { s with sent := s.sent ++ bytes.map fun b => (j, b), queue := rest } := by
  simp only [Sentry.written, hq, if_neg h0, if_pos hn, List.take_of_length_le hn]

theorem written_part {s : Sentry} {j : Nat} {bytes : List UInt8} {rest : List (Nat × List UInt8)}
    (hq : s.queue = (j, bytes) :: rest) {n : Nat} (hn : n < bytes.length) (h0 : n ≠ 0) :
    s.written n = { s with
      sent := s.sent ++ (bytes.take n).map fun b => (j, b), queue := rest ++ [(j, bytes.drop n)] } := by
  simp only [Sentry.written, hq, if_neg h0, if_neg (Nat.not_le_of_lt hn)]

/-! ### What the socket sends next -/

theorem wire_prefix_step (s : Sentry) : ∀ a : Act, s.wire <+: (s.step a).wire
  | .sendLog logLine => by
    show s.wire <+: (s.sendLog logLine).wire
    unfold Sentry.sendLog
    split <;> exact List.prefix_refl _
  | .connected ok => by
    show s.wire <+: (s.onConnect ok).wire
    unfold Sentry.onConnect Sentry.sendLog
    split_ifs <;> exact List.prefix_refl _
  | .written n => by
    show s.wire <+: (s.written n).wire
    unfold Sentry.written
    split
    · exact List.prefix_refl _
    · split
      · exact List.prefix_refl _
      · simp only [wire, List.map_append]
        exact List.prefix_append _ _

theorem wire_prefix_run : ∀ (acts : List Act) (s : Sentry), s.wire <+: (s.run acts).wire
  | [], _ => List.prefix_refl _
  | a :: acts, s => (s.wire_prefix_step a).trans (wire_prefix_run acts (s.step a))

/-- A step either sends nothing and keeps the first queued operation first, or sends that
operation's first byte next. -/
theorem step_front {s : Sentry} {j : Nat} {bytes : List UInt8} {rest : List (Nat × List UInt8)}
    (hq : s.queue = (j, bytes) :: rest) : ∀ a : Act,
    ((s.step a).wire = s.wire ∧ ∃ rest', (s.step a).queue = (j, bytes) :: rest') ∨
      s.wire ++ bytes.take 1 <+: (s.step a).wire
  | .sendLog logLine => by
    refine Or.inl ?_
    show (s.sendLog logLine).wire = s.wire ∧ ∃ rest', (s.sendLog logLine).queue = (j, bytes) :: rest'
    unfold Sentry.sendLog
    split
    · exact ⟨rfl, rest, hq⟩
    · exact ⟨rfl, _, by rw [hq, List.cons_append]⟩
  | .connected true =>
    Or.inl ⟨rfl, _, (congrArg (· ++ _) hq).trans (List.cons_append _ _ _)⟩
  | .connected false => Or.inl ⟨rfl, rest, hq⟩
  | .written n => by
    show ((s.written n).wire = s.wire ∧ ∃ rest', (s.written n).queue = (j, bytes) :: rest') ∨
      s.wire ++ bytes.take 1 <+: (s.written n).wire
    unfold Sentry.written
    rw [hq]
    split_ifs with h0
    · exact Or.inl ⟨rfl, rest, hq⟩
    · refine Or.inr ?_
      simp only [wire, List.map_append, List.map_map, Function.comp_def, List.map_id']
      exact (List.prefix_append_right_inj _).2 (List.take_prefix_take_left _ (by omega))

/-- Over any continuation, the socket sends nothing more, or sends the first queued operation's
first byte next. -/
theorem run_front : ∀ (acts : List Act) {s : Sentry} {j : Nat} {bytes : List UInt8}
    {rest : List (Nat × List UInt8)}, s.queue = (j, bytes) :: rest →
    (s.run acts).wire = s.wire ∨ s.wire ++ bytes.take 1 <+: (s.run acts).wire
  | [], _, _, _, _, _ => Or.inl rfl
  | a :: acts, s, _, _, _, hq => by
    rcases step_front hq a with ⟨hw, rest', hq'⟩ | hp
    · rw [run_cons, ← hw]
      exact run_front acts hq'
    · exact Or.inr (hp.trans (wire_prefix_run acts _))

/-! ### One write at a time -/

def Act.starts : Act → Bool
  | .sendLog _ => true
  | .connected ok => ok
  | .written _ => false

/-- At most one write in flight, and the wire followed by what that write has left is everything
handed to `async_write`. -/
structure Serial (s : Sentry) : Prop where
  queue_le : s.queue.length ≤ 1
  wire_eq : s.wire ++ s.queue.flatMap Prod.snd = s.issued.flatten

theorem serial_create (agentId : List UInt8) : Serial (create agentId) := ⟨Nat.zero_le _, rfl⟩

theorem Serial.sendLog {s : Sentry} (h : Serial s) (h0 : s.queue = []) (logLine : List UInt8) :
    Serial (s.sendLog logLine) := by
  unfold Sentry.sendLog
  split
  · exact h
  · have hw := h.wire_eq
    rw [h0, List.flatMap_nil, List.append_nil] at hw
    refine ⟨by simp [h0], ?_⟩
    show s.wire ++ (s.queue ++ [(s.issued.length, logLine ++ [newline])]).flatMap Prod.snd =
      (s.issued ++ [logLine ++ [newline]]).flatten
    rw [h0, List.flatten_append, ← hw]
    simp

theorem Serial.written {s : Sentry} (h : Serial s) (n : Nat) : Serial (s.written n) := by
  unfold Sentry.written
  split
  · exact h
  · rename_i j bytes rest hqueue
    have hrest : rest = [] := List.eq_nil_of_length_eq_zero (by
      have := h.queue_le
      rw [hqueue, List.length_cons] at this
      omega)
    have hw := h.wire_eq
    rw [hqueue, hrest] at hw
    split
    · exact h
    · refine ⟨by split_ifs <;> simp [hrest], ?_⟩
      dsimp only
      rw [← hw, hrest]
      split_ifs with hlen
      · simp [wire, List.take_of_length_le hlen]
      · simp [wire]

theorem Serial.step {s : Sentry} (h : Serial s) :
    ∀ a : Act, (a.starts = true → s.queue = []) → Serial (s.step a)
  | .sendLog logLine, h0 => h.sendLog (h0 rfl) logLine
  | .connected true, h0 =>
    (show Serial { s with connected := true } from ⟨h.1, h.2⟩).sendLog (h0 rfl) _
  | .connected false, _ => ⟨h.1, h.2⟩
  | .written n, _ => h.written n

theorem Serial.run : ∀ (acts : List Act) {s : Sentry}, Serial s →
    (∀ k (hk : k < acts.length), acts[k].starts = true → (s.run (acts.take k)).queue = []) →
      Serial (s.run acts)
  | [], _, h, _ => h
  | a :: acts, _, h, hk =>
    Serial.run acts (h.step a (hk 0 (Nat.succ_pos _))) fun k hlt ha =>
      hk (k + 1) (Nat.succ_lt_succ hlt) ha

/-- The sequential client's step for an action: what it hands to `async_write` written at once. -/
def Act.serial : Act → TcpClient → TcpClient
  | .sendLog logLine, c => c.sendLog logLine
  | .connected ok, c => if ok then c.connect else { c with connected := false }
  | .written _, c => c

def serialRun (c : TcpClient) (acts : List Act) : TcpClient := acts.foldl (fun c a => a.serial c) c

/-- The sequential client a sentry stands for: everything handed to `async_write` written. -/
def toClient (s : Sentry) : TcpClient := ⟨s.agentId, s.connected, s.issued.flatten⟩

theorem toClient_sendLog (s : Sentry) (logLine : List UInt8) :
    (s.sendLog logLine).toClient = s.toClient.sendLog logLine := by
  unfold Sentry.sendLog TcpClient.sendLog
  split <;> simp_all [toClient]

theorem toClient_step (s : Sentry) : ∀ a : Act, (s.step a).toClient = a.serial s.toClient
  | .sendLog logLine => toClient_sendLog s logLine
  | .connected true => toClient_sendLog { s with connected := true } _
  | .connected false => rfl
  | .written n => by
    show (s.written n).toClient = s.toClient
    unfold Sentry.written
    split
    · rfl
    · split <;> rfl

theorem toClient_run : ∀ (acts : List Act) (s : Sentry),
    (s.run acts).toClient = serialRun s.toClient acts
  | [], _ => rfl
  | a :: acts, s => by
    rw [run_cons, toClient_run acts, toClient_step]
    rfl

end Sentry

/-- So long as a message is handed to `async_write` only when no write is in flight, whatever the
socket takes on each write: the wire followed by what the write in flight has left is the stream
the sequential client `TcpClient` writes for the same calls, with the failed connects that leave
it not connected. -/
theorem sentry_serial_writes_ship (agentId : List UInt8) (acts : List Sentry.Act)
    (hserial : ∀ k (hk : k < acts.length), acts[k].starts = true →
      ((Sentry.create agentId).run (acts.take k)).queue = []) :
    ((Sentry.create agentId).run acts).wire ++
        ((Sentry.create agentId).run acts).queue.flatMap Prod.snd =
      (Sentry.serialRun ⟨agentId, false, []⟩ acts).written := by
  rw [(Sentry.Serial.run acts (Sentry.serial_create agentId) hserial).wire_eq]
  exact congrArg TcpClient.written (Sentry.toClient_run acts (Sentry.create agentId))

theorem sentry_serial_writes_ship_two :
    let acts : List Sentry.Act :=
      [.connected true, .written 5, .written 100, .sendLog [120], .written 2]
    (∀ k (hk : k < acts.length), acts[k].starts = true →
        ((Sentry.create [97]).run (acts.take k)).queue = []) ∧
      ((Sentry.create [97]).run acts).wire ++ ((Sentry.create [97]).run acts).queue.flatMap Prod.snd =
        (Sentry.serialRun ⟨[97], false, []⟩ acts).written := by
  intro acts
  have h : ∀ k (hk : k < acts.length), acts[k].starts = true →
      ((Sentry.create [97]).run (acts.take k)).queue = [] := by
    simp only [acts]
    decide
  exact ⟨h, sentry_serial_writes_ship [97] acts h⟩

/-- A stream that carries the first `k` bytes of `P` and then a byte other than `P`'s next one does
not begin with `P`. -/
theorem not_prefix_of_take_append {α : Type} {P w b : List α} {k : Nat} (hk : k < P.length)
    (hb : b.length = 1) (hw : P.take k ++ b <+: w) (hne : b ≠ (P.drop k).take 1) : ¬ P <+: w := by
  intro hP
  have h : P.take k ++ b <+: P.take k ++ P.drop k := by
    rw [List.take_append_drop]
    refine List.prefix_of_prefix_length_le hw hP ?_
    rw [List.length_append, List.length_take, Nat.min_eq_left hk.le, hb]
    exact hk
  have hd := (List.prefix_append_right_inj _).1 h
  rw [List.prefix_iff_eq_take, hb] at hd
  exact hne hd

/-- Connected, a line sent, and the socket taking the handshake's first `k` bytes: those bytes are
on the wire, and the line's write is queued ahead of the handshake's rest. -/
theorem Sentry.handshake_partial (agentId logLine : List UInt8) {k : Nat} (hk : 0 < k)
    (hkl : k ≤ (helloPrefix ++ agentId).length) :
    ((Sentry.create agentId).run [.connected true, .sendLog logLine, .written k]).wire =
        (helloPrefix ++ agentId).take k ∧
      ((Sentry.create agentId).run [.connected true, .sendLog logLine, .written k]).queue =
        [(1, logLine ++ [newline]), (0, (helloPrefix ++ agentId ++ [newline] ++ [newline]).drop k)] := by
  have hq : ((Sentry.create agentId).run [.connected true, .sendLog logLine]).queue =
      (0, helloPrefix ++ agentId ++ [newline] ++ [newline]) :: [(1, logLine ++ [newline])] := rfl
  have h3 := Sentry.written_part hq
    (lt_of_le_of_lt hkl (by simp only [List.length_append, List.length_singleton]; omega))
    (Nat.pos_iff_ne_zero.1 hk)
  refine ⟨?_, by
    show (((Sentry.create agentId).run [.connected true, .sendLog logLine]).written k).queue = _
    rw [h3]
    rfl⟩
  show (((Sentry.create agentId).run [.connected true, .sendLog logLine]).written k).wire = _
  rw [h3]
  show (([] : List (Nat × UInt8)) ++ _).map Prod.snd = _
  rw [List.nil_append, List.map_map]
  show (List.take k _).map id = _
  rw [List.map_id, List.take_append_of_le_length (hkl.trans (List.prefix_append _ _).length_le),
    List.take_append_of_le_length hkl]

end Blackbox