import Mathlib.Order.Basic

/-!
# Shutdown on a signal

`SignalHandler::trigger_shutdown`, run from the handler of `SIGINT` or `SIGTERM`, clears `running_`
with a compare-exchange and, if it won, calls `cv_.notify_all()`; the main thread sits in
`wait_for_signal`, whose `cv_.wait(lock, pred)` checks `!running_` under `mutex_` and, while it is
false, blocks. Only the waiter takes `mutex_`, so the lock never keeps a trigger out; it is left
out of the model.

However many signals arrive, `notify_all` is called at most once, and `wait_for_signal` returns
only once `running_` is cleared (`shutdown_notifies_once`). The trigger does not take the mutex, so
its exchange and its notification can fall between the waiter's check and its blocking: the
notification then reaches no one, and the waiter stays blocked whatever follows, unless woken
spuriously (`shutdown_wakeup_lost`).
-/

namespace Blackbox

/-- Where the main thread is in `wait_for_signal`. -/
inductive WaitPc
  | lock
  | check
  | block
  | waiting
  | relock
  | done
  deriving DecidableEq

/-- `running_`, where the main thread is, how many `trigger_shutdown` calls are before their
compare-exchange and how many are between it and `notify_all` (the calls are alike, so counts say
where they all are); and, as history the code does not keep, the `notify_all` calls made. -/
structure SignalHandler where
  running : Bool
  main : WaitPc
  atExchange : Nat
  atNotify : Nat
  notifies : Nat

namespace SignalHandler

/-- What can happen next: a signal starts a `trigger_shutdown` call, a call makes its exchange or
its notification, the main thread takes a step, or the waiter wakes spuriously (which
`condition_variable` permits). -/
inductive Act
  | signal
  | exchange
  | notify
  | main
  | spurious
  deriving DecidableEq

/-- Modelled from the spec: `running_` starts true (the header is not in the source; the
exchange's `expected = true` needs it so), the main thread about to wait. -/
def init : SignalHandler := ⟨true, .lock, 0, 0, 0⟩

/-- Where one step of `wait_for_signal` takes the main thread: take the lock; test `!running_`
and return, or go on to wait; release the lock and block in one step (`cv_.wait`); once woken,
take the lock again and test again. -/
def waitNext (running : Bool) : WaitPc → WaitPc
  | .lock => .check
  | .check => if running then .block else .done
  | .block => .waiting
  | .waiting => .waiting
  | .relock => .check
  | .done => .done

/-- A wake-up: a blocked waiter goes on to take the lock again. -/
def wake : WaitPc → WaitPc
  | .waiting => .relock
  | pc => pc

/-- One step of `wait_for_signal`. -/
def waitStep (s : SignalHandler) : SignalHandler := { s with main := waitNext s.running s.main }

/-- `running_.compare_exchange_strong(expected = true, false)` of one call: the winner goes on to
notify, a loser returns. -/
def exchange (s : SignalHandler) : SignalHandler :=
  if s.atExchange = 0 then s
  else if s.running then
    { s with running := false, atExchange := s.atExchange - 1, atNotify := s.atNotify + 1 }
  else { s with atExchange := s.atExchange - 1 }

/-- `cv_.notify_all()` of a call that won the exchange: a blocked waiter wakes. -/
def notify (s : SignalHandler) : SignalHandler :=
  if s.atNotify = 0 then s
  else { s with atNotify := s.atNotify - 1, notifies := s.notifies + 1, main := wake s.main }

def step (s : SignalHandler) : Act → SignalHandler
  | .signal => { s with atExchange := s.atExchange + 1 }
  | .exchange => s.exchange
  | .notify => s.notify
  | .main => s.waitStep
  | .spurious => { s with main := wake s.main }

def run (s : SignalHandler) (acts : List Act) : SignalHandler := acts.foldl step s

/-- While `running_` is set no call has won the exchange; once it is cleared exactly one has, and
it has notified or is about to; the waiter has returned only with `running_` cleared. -/
structure Inv (s : SignalHandler) : Prop where
  running_eq : s.running = true → s.atNotify = 0 ∧ s.notifies = 0
  cleared_eq : s.running = false → s.atNotify + s.notifies = 1
  done_cleared : s.main = .done → s.running = false

theorem inv_init : Inv init := ⟨fun _ => ⟨rfl, rfl⟩, nofun, nofun⟩

theorem waitNext_done {running : Bool} : ∀ {pc : WaitPc}, waitNext running pc = .done →
    pc = .done ∨ running = false
  | .check, h => by cases running <;> simp_all [waitNext]
  | .done, _ => Or.inl rfl
  | .lock, h | .block, h | .waiting, h | .relock, h => nomatch h

theorem wake_done : ∀ {pc : WaitPc}, wake pc = .done → pc = .done
  | .done, _ => rfl
  | .lock, h | .check, h | .block, h | .waiting, h | .relock, h => nomatch h

theorem Inv.waitStep {s : SignalHandler} (h : Inv s) : Inv s.waitStep :=
  ⟨h.running_eq, h.cleared_eq, fun hd => (waitNext_done hd).elim h.done_cleared id⟩

theorem Inv.exchange {s : SignalHandler} (h : Inv s) : Inv s.exchange := by
  unfold SignalHandler.exchange
  split_ifs with h0 hr
  · exact h
  · obtain ⟨h1, h2⟩ := h.running_eq hr
    exact ⟨nofun, fun _ => show s.atNotify + 1 + s.notifies = 1 by omega, fun _ => rfl⟩
  · exact ⟨h.running_eq, h.cleared_eq, h.done_cleared⟩

theorem Inv.notify {s : SignalHandler} (h : Inv s) : Inv s.notify := by
  unfold SignalHandler.notify
  split_ifs with hn
  · exact h
  · refine ⟨fun hr => absurd (h.running_eq hr).1 hn, fun hr => ?_,
      fun hd => h.done_cleared (wake_done hd)⟩
    have := h.cleared_eq hr
    show s.atNotify - 1 + (s.notifies + 1) = 1
    omega

theorem Inv.step {s : SignalHandler} (h : Inv s) : ∀ a : Act, Inv (s.step a)
  | .signal => ⟨h.running_eq, h.cleared_eq, h.done_cleared⟩
  | .exchange => h.exchange
  | .notify => h.notify
  | .main => h.waitStep
  | .spurious => ⟨h.running_eq, h.cleared_eq, fun hd => h.done_cleared (wake_done hd)⟩

theorem Inv.run : ∀ (acts : List Act) {s : SignalHandler}, Inv s → Inv (s.run acts)
  | [], _, h => h
  | a :: acts, _, h => Inv.run acts (h.step a)

/-- The waiter blocked after the only notification has gone: `running_` cleared, no call left to
notify. -/
def Stranded (s : SignalHandler) : Prop :=
  s.running = false ∧ s.atNotify = 0 ∧ s.main = .waiting

theorem Stranded.step {s : SignalHandler} (h : Stranded s) :
    ∀ a : Act, a ≠ .spurious → Stranded (s.step a)
  | .signal, _ => h
  | .exchange, _ => by
    obtain ⟨hr, hn, hw⟩ := h
    show Stranded s.exchange
    unfold SignalHandler.exchange
    split_ifs with h0 hr'
    · exact ⟨hr, hn, hw⟩
    · exact absurd hr' (by simp [hr])
    · exact ⟨hr, hn, hw⟩
  | .notify, _ => by
    obtain ⟨hr, hn, hw⟩ := h
    show Stranded s.notify
    rw [SignalHandler.notify, if_pos hn]
    exact ⟨hr, hn, hw⟩
  | .main, _ => ⟨h.1, h.2.1, show waitNext s.running s.main = .waiting by rw [h.2.2]; rfl⟩
  | .spurious, h' => absurd rfl h'

end SignalHandler

/-- However many signals arrive and however the threads interleave: `notify_all` is called at most
once, only after `running_` has been cleared, and `wait_for_signal` returns only once `running_`
is cleared. -/
theorem shutdown_notifies_once (acts : List SignalHandler.Act) :
    (SignalHandler.init.run acts).notifies ≤ 1 ∧
      ((SignalHandler.init.run acts).notifies = 1 → (SignalHandler.init.run acts).running = false) ∧
      ((SignalHandler.init.run acts).main = .done → (SignalHandler.init.run acts).running = false) := by
  have h := SignalHandler.Inv.run acts SignalHandler.inv_init
  refine ⟨?_, fun h1 => ?_, h.done_cleared⟩
  · cases hr : (SignalHandler.init.run acts).running
    · have := h.cleared_eq hr
      omega
    · simp [(h.running_eq hr).2]
  · cases hr : (SignalHandler.init.run acts).running
    · rfl
    · simp [(h.running_eq hr).2] at h1

/-- Once `running_` is cleared and its one notification has been made while the waiter was not
yet blocked, a waiter that then blocks stays blocked in every continuation without a spurious
wake-up, whatever further signals arrive. -/
theorem shutdown_wakeup_lost {s : SignalHandler} (hr : s.running = false) (hn : s.atNotify = 0)
    (hw : s.main = .waiting) (acts : List SignalHandler.Act)
    (hs : ∀ a ∈ acts, a ≠ .spurious) : (s.run acts).main = .waiting := by
  suffices ∀ (acts : List SignalHandler.Act) (s : SignalHandler), SignalHandler.Stranded s →
      (∀ a ∈ acts, a ≠ .spurious) → SignalHandler.Stranded (s.run acts) from
    (this acts s ⟨hr, hn, hw⟩ hs).2.2
  intro acts
  induction acts with
  | nil => exact fun _ h _ => h
  | cons a acts ih =>
    exact fun s h hs => ih _ (h.step a (hs a (List.mem_cons_self a acts)))
      fun b hb => hs b (List.mem_cons_of_mem a hb)

theorem shutdown_wakeup_lost_race :
    let s := SignalHandler.init.run [.main, .main, .signal, .exchange, .notify, .main]
    s.running = false ∧ s.atNotify = 0 ∧ s.main = .waiting ∧
      (s.run [.signal, .exchange, .notify, .main, .main]).main = .waiting :=
  ⟨rfl, rfl, rfl, shutdown_wakeup_lost rfl rfl rfl _ (by decide)⟩

end Blackbox
