import Mathlib.Data.List.Basic

/-!
# The pub/sub publisher

`RedisClient` holds a hiredis context (`context_`) and a flag (`connected_`). `connect` frees any
context before asking for a new one; `publish`, under the client's mutex, reconnects when the
client is not connected, drops the message when that fails, and on a missing reply frees the
context and marks the client disconnected, so that the next publish reconnects.

Whatever `redisConnectWithTimeout` and `redisCommand` return, the flag says exactly whether a
context is held, at most one context is ever live, every other one has been freed once, and the
destructor frees the last (`redis_context_owned`); and every message is sent at most once, in call
order, never retried (`redis_sends_in_order`).
-/

namespace Blackbox

/-- What `redisConnectWithTimeout` gives: no context at all, a context with `err` set, or a
connected context. -/
inductive ConnectResult
  | noContext
  | failed
  | ok
  deriving DecidableEq

/-- A `RedisClient`: whether `context_` holds a context, and `connected_`; and, as history the
code does not keep, how many contexts hiredis has allocated and how many `redisFree` has freed, and
the channel and message of every `PUBLISH` sent. -/
structure RedisClient where
  context : Bool
  connected : Bool
  allocated : Nat
  freed : Nat
  sent : List (List Char × List Char)

namespace RedisClient

/-- `redisFree(context_); context_ = nullptr`; `redisFree` of a null context does nothing. -/
def release (c : RedisClient) : RedisClient :=
  if c.context then { c with context := false, freed := c.freed + 1 } else c

/-- `RedisClient::connect`, given what `redisConnectWithTimeout` returns: the client after it, and
the result. -/
def connect (c : RedisClient) (r : ConnectResult) : RedisClient × Bool :=
  let c := c.release
  match r with
  | .noContext => ({ c with connected := false }, false)
  | .failed => ({ c with allocated := c.allocated + 1, freed := c.freed + 1, connected := false }, false)
  | .ok => ({ c with context := true, allocated := c.allocated + 1, connected := true }, true)

/-- The constructor: no context and not connected, then `connect()`. -/
def create (r : ConnectResult) : RedisClient := (connect ⟨false, false, 0, 0, []⟩ r).1

/-- Step 1 of `publish`: reconnect unless connected with a context; whether to go on. -/
def ensureConnected (c : RedisClient) (r : ConnectResult) : RedisClient × Bool :=
  if !c.connected || !c.context then c.connect r else (c, true)

/-- Steps 2 to 4 of `publish`: send `PUBLISH channel message`; on no reply free the context and
mark the client disconnected. -/
def command (c : RedisClient) (channel message : List Char) (reply : Bool) : RedisClient :=
  let c := { c with sent := c.sent ++ [(channel, message)] }
  if reply then c else { c.release with connected := false }

/-- `RedisClient::publish(channel, message)`, given what a reconnect would return and whether
`redisCommand` gets a reply: a failed reconnect drops the message. -/
def publish (c : RedisClient) (channel message : List Char) (r : ConnectResult) (reply : Bool) :
    RedisClient :=
  let attempt := c.ensureConnected r
  if !attempt.2 then attempt.1 else attempt.1.command channel message reply

/-- The destructor: `redisFree` of any context held. -/
def destroy (c : RedisClient) : RedisClient := c.release

/-- A call of `publish`, with what the environment answers. -/
structure Publish where
  channel : List Char
  message : List Char
  reconnect : ConnectResult
  reply : Bool

/-- Calls of `publish`, one after another (the mutex orders concurrent callers). -/
def run (c : RedisClient) (ps : List Publish) : RedisClient :=
  ps.foldl (fun c p => c.publish p.channel p.message p.reconnect p.reply) c

/-- `connected_` says whether a context is held, and every context allocated is freed but the one
held. -/
structure Inv (c : RedisClient) : Prop where
  connected_eq : c.connected = c.context
  allocated_eq : c.allocated = c.freed + if c.context then 1 else 0

theorem Inv.release {c : RedisClient} (h : Inv c) :
    c.release.context = false ∧ c.release.allocated = c.release.freed ∧
      c.release.connected = c.connected ∧ c.release.sent = c.sent := by
  have := h.allocated_eq
  unfold RedisClient.release
  split <;> simp_all

theorem Inv.connect {c : RedisClient} (h : Inv c) (r : ConnectResult) :
    Inv (c.connect r).1 ∧ (c.connect r).1.sent = c.sent := by
  obtain ⟨h1, h2, -, h4⟩ := h.release
  cases r <;>
    exact ⟨⟨by simp [RedisClient.connect, h1], by simp [RedisClient.connect, h1, h2]⟩, h4⟩

theorem inv_create (r : ConnectResult) : Inv (create r) :=
  (Inv.connect ⟨rfl, rfl⟩ r).1

theorem Inv.ensureConnected {c : RedisClient} (h : Inv c) (r : ConnectResult) :
    Inv (c.ensureConnected r).1 ∧ (c.ensureConnected r).1.sent = c.sent := by
  unfold RedisClient.ensureConnected
  split
  · exact h.connect r
  · exact ⟨h, rfl⟩

theorem Inv.command {c : RedisClient} (h : Inv c) (channel message : List Char) (reply : Bool) :
    Inv (c.command channel message reply) ∧
      (c.command channel message reply).sent = c.sent ++ [(channel, message)] := by
  have h' : Inv { c with sent := c.sent ++ [(channel, message)] } := ⟨h.connected_eq, h.allocated_eq⟩
  obtain ⟨h1, h2, -, h4⟩ := h'.release
  unfold RedisClient.command
  split
  · exact ⟨h', rfl⟩
  · exact ⟨⟨by simp [h1], by simp [h1, h2]⟩, h4⟩

theorem Inv.publish {c : RedisClient} (h : Inv c) (channel message : List Char)
    (r : ConnectResult) (reply : Bool) :
    Inv (c.publish channel message r reply) ∧
      ((c.publish channel message r reply).sent = c.sent ∨
        (c.publish channel message r reply).sent = c.sent ++ [(channel, message)]) := by
  obtain ⟨hi, hs⟩ := h.ensureConnected r
  unfold RedisClient.publish
  dsimp only
  split
  · exact ⟨hi, Or.inl hs⟩
  · obtain ⟨hc, hcs⟩ := hi.command channel message reply
    exact ⟨hc, Or.inr (hs ▸ hcs)⟩

theorem Inv.run : ∀ (ps : List Publish) {c : RedisClient}, Inv c →
    Inv (c.run ps) ∧ ∃ new, (c.run ps).sent = c.sent ++ new ∧
      List.Sublist new (ps.map fun p => (p.channel, p.message))
  | [], c, h => ⟨h, [], by simp [RedisClient.run]⟩
  | p :: ps, c, h => by
    obtain ⟨hp, hs⟩ := h.publish p.channel p.message p.reconnect p.reply
    obtain ⟨hr, new, hnew, hsub⟩ := Inv.run ps hp
    refine ⟨hr, ?_⟩
    rcases hs with hs | hs
    · exact ⟨new, by rw [RedisClient.run, List.foldl_cons, ← RedisClient.run, hnew, hs],
        hsub.cons _⟩
    · exact ⟨(p.channel, p.message) :: new, by
        rw [RedisClient.run, List.foldl_cons, ← RedisClient.run, hnew, hs, List.append_assoc,
          List.singleton_append], hsub.cons₂ _⟩

end RedisClient

/-- Whatever the constructor's connection attempt and the outcome of every later reconnect and
`PUBLISH`: after any sequence of publishes, `is_connected()` is true exactly when a context is
held, every context hiredis allocated has been freed exactly once except the one held, and after
the destructor every context has been freed. -/
theorem redis_context_owned (r : ConnectResult) (ps : List RedisClient.Publish) :
    ((RedisClient.create r).run ps).connected = ((RedisClient.create r).run ps).context ∧
      ((RedisClient.create r).run ps).allocated =
        ((RedisClient.create r).run ps).freed + (if ((RedisClient.create r).run ps).context then 1 else 0) ∧
      ((RedisClient.create r).run ps).destroy.allocated = ((RedisClient.create r).run ps).destroy.freed := by
  have h := (RedisClient.Inv.run ps (RedisClient.inv_create r)).1
  exact ⟨h.connected_eq, h.allocated_eq, h.release.2.1⟩

/-- Whatever the connection attempts and replies: the `PUBLISH` commands sent are among the
`publish` calls, in call order, each call sending at most once; a message that fails is dropped,
never retried. -/
theorem redis_sends_in_order (r : ConnectResult) (ps : List RedisClient.Publish) :
    List.Sublist ((RedisClient.create r).run ps).sent (ps.map fun p => (p.channel, p.message)) := by
  obtain ⟨-, new, hnew, hsub⟩ := RedisClient.Inv.run ps (RedisClient.inv_create r)
  have h0 : (RedisClient.create r).sent = [] := by cases r <;> rfl
  rw [hnew, h0, List.nil_append]
  exact hsub

end Blackbox
