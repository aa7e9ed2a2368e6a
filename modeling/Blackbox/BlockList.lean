import Mathlib.Data.List.AList

/-!
# The block list and its firewall commands

`BlockListManager` keeps `active_blocks_`, one `BlockEntry` per ip, and runs `iptables` through
`std::system` when a ban starts (`block_ip`) or ends (`unblock_ip`), each call holding `mutex_`
throughout. Calls from other threads, the clock and the steps of the expiration worker interleave
in any order (`Defense.run`), and every step changes the guarded state by one call or not at all
(`step_manager`). So for an ip the adapter accepts, the commands issued for it alternate add,
remove, add, … from an add, and it is blocked exactly after an add
(`firewall_commands_alternate`); for one it rejects, none is ever issued.
-/

namespace Blackbox

/-- Modelled from the spec: `BlockEntry` of the missing `block_list_manager.h`, with the fields
`block_ip` sets: the ip, `start_time` as a `steady_clock` count, and `duration_seconds`. -/
structure BlockEntry where
  ip : String
  startTime : Int
  durationSeconds : Int
  deriving DecidableEq, Repr

/-- `steady_clock` ticks in a second: its counts are nanoseconds. -/
def ticksPerSecond : Int := 1000000000

/-- The command `execute_firewall_command` builds for `ip`. -/
def firewallCommand (ip : String) (add : Bool) : String :=
  if add then "iptables -A INPUT -s " ++ ip ++ " -j DROP" else "iptables -D INPUT -s " ++ ip ++ " -j DROP"

/-- `BlockListManager::execute_firewall_command`: the command it passes to `std::system`, none
when the ip holds a space or a semicolon. -/
def executeFirewallCommand (ip : String) (add : Bool) : Option String :=
  if ' ' ∈ ip.data ∨ ';' ∈ ip.data then none else some (firewallCommand ip add)

/-- The state `mutex_` guards: `active_blocks_`, and the commands passed to `std::system` so far,
in order. -/
structure BlockListManager where
  activeBlocks : AList fun _ : String => BlockEntry
  commands : List String

namespace BlockListManager

/-- `BlockListManager::block_ip`, with `steady_clock::now()` reading `now`. -/
def blockIp (m : BlockListManager) (ip : String) (durationSeconds now : Int) : BlockListManager :=
  if ip ∈ m.activeBlocks then m
  else ⟨m.activeBlocks.insert ip ⟨ip, now, durationSeconds⟩,
    m.commands ++ (executeFirewallCommand ip true).toList⟩

/-- `BlockListManager::unblock_ip`. -/
def unblockIp (m : BlockListManager) (ip : String) : BlockListManager :=
  if ip ∈ m.activeBlocks then
    ⟨m.activeBlocks.erase ip, m.commands ++ (executeFirewallCommand ip false).toList⟩
  else m

/-- `BlockListManager::is_blocked`. -/
def isBlocked (m : BlockListManager) (ip : String) : Bool := decide (ip ∈ m.activeBlocks)

/-- `duration_cast<seconds>(now - start_time).count()`: whole seconds, truncated toward zero. -/
def elapsedSeconds (now startTime : Int) : Int := (now - startTime).tdiv ticksPerSecond

/-- The scan of `expiration_worker` under `mutex_`: the ips whose ban has run at `now`, in the
map's order. -/
def expiredIps (m : BlockListManager) (now : Int) : List String :=
  m.activeBlocks.entries.filterMap fun e =>
    if elapsedSeconds now e.2.startTime ≥ e.2.durationSeconds then some e.1 else none

end BlockListManager

/-- Where the expiration worker stands: asleep until `wake`; awake, having read `now`; or
unblocking the ips its scan collected. -/
inductive Worker
  | sleeping (wake : Int)
  | scanning (now : Int)
  | unblocking (now : Int) (expiredIps : List String)
  deriving DecidableEq, Repr

/-- The manager, `steady_clock`, and the worker thread. -/
structure Defense where
  manager : BlockListManager
  clock : Int
  worker : Worker

namespace Defense

/-- What can happen next: a `block_ip` or `unblock_ip` call from another thread, the clock
advancing, or one step of the worker. -/
inductive Act
  | blockIp (ip : String) (durationSeconds : Int)
  | unblockIp (ip : String)
  | tick (ticks : Nat)
  | worker

/-- The constructor: no bans, and the worker starting its first five-second sleep. -/
def init (clock : Int) : Defense := ⟨⟨∅, []⟩, clock, .sleeping (clock + 5 * ticksPerSecond)⟩

/-- One step of the loop of `expiration_worker`: wake and read the clock, scan, then one
`unblock_ip` per collected ip, then sleep again. -/
def workerStep (s : Defense) : Defense :=
  match s.worker with
  | .sleeping wake => if wake ≤ s.clock then { s with worker := .scanning s.clock } else s
  | .scanning now => { s with worker := .unblocking now (s.manager.expiredIps now) }
  | .unblocking _ [] => { s with worker := .sleeping (s.clock + 5 * ticksPerSecond) }
  | .unblocking now (ip :: ips) =>
    { s with manager := s.manager.unblockIp ip, worker := .unblocking now ips }

def step (s : Defense) : Act → Defense
  | .blockIp ip d => { s with manager := s.manager.blockIp ip d s.clock }
  | .unblockIp ip => { s with manager := s.manager.unblockIp ip }
  | .tick n => { s with clock := s.clock + n }
  | .worker => s.workerStep

def run (s : Defense) (acts : List Act) : Defense := acts.foldl step s

theorem step_manager (s : Defense) (a : Act) :
    (s.step a).manager = s.manager ∨ (∃ ip d, (s.step a).manager = s.manager.blockIp ip d s.clock) ∨
      ∃ ip, (s.step a).manager = s.manager.unblockIp ip := by
  cases a with
  | blockIp ip d => exact .inr (.inl ⟨ip, d, rfl⟩)
  | unblockIp ip => exact .inr (.inr ⟨ip, rfl⟩)
  | tick n => exact .inl rfl
  | worker =>
    simp only [step, workerStep]
    split
    · split <;> exact .inl rfl
    · exact .inl rfl
    · exact .inl rfl
    · exact .inr (.inr ⟨_, rfl⟩)

end Defense

section Commands

theorem firewallCommand_ip {ip ip' : String} {a b : Bool}
    (h : firewallCommand ip a = firewallCommand ip' b) : ip = ip' := by
  have hd := congrArg String.data h
  cases a <;> cases b <;> simp [firewallCommand] at hd <;> exact String.ext hd

theorem firewallCommand_add_ne (ip : String) : firewallCommand ip true ≠ firewallCommand ip false := by
  intro h
  simpa [firewallCommand] using congrArg String.data h

theorem executeFirewallCommand_of_accepted {ip : String} (h1 : ' ' ∉ ip.data) (h2 : ';' ∉ ip.data)
    (add : Bool) : executeFirewallCommand ip add = some (firewallCommand ip add) :=
  if_neg (not_or.2 ⟨h1, h2⟩)

/-- A host holding a pipe passes the check, and `std::system` is handed a pipeline into
`reboot`. -/
theorem pipe_reaches_system :
    '|' ∈ "1.2.3.4|reboot".data ∧ executeFirewallCommand "1.2.3.4|reboot" true =
      some "iptables -A INPUT -s 1.2.3.4|reboot -j DROP" :=
  ⟨by decide, executeFirewallCommand_of_accepted (by decide) (by decide) true⟩

def issuedFor (ip : String) (cmds : List String) : List String :=
  cmds.filter fun c => c == firewallCommand ip true || c == firewallCommand ip false

/-- `n` commands for `ip`, add and remove in turn from an add. -/
def alternating (ip : String) (n : Nat) : List String :=
  (List.range n).map fun k => firewallCommand ip (k % 2 = 0)

theorem alternating_succ (ip : String) (n : Nat) :
    alternating ip (n + 1) = alternating ip n ++ [firewallCommand ip (n % 2 = 0)] := by
  simp [alternating, List.range_succ]

theorem alternating_getLast? (ip : String) (n : Nat) :
    (alternating ip n).getLast? = some (firewallCommand ip true) ↔ n % 2 = 1 := by
  cases n with
  | zero => simp [alternating]
  | succ n =>
    rw [alternating_succ, List.getLast?_append, List.getLast?_singleton, Option.or_some,
      Option.some.injEq]
    by_cases h : n % 2 = 0
    · simp [h]
      omega
    · simp only [h, decide_False]
      exact ⟨fun e => absurd e.symm (firewallCommand_add_ne ip), fun _ => by omega⟩

theorem issuedFor_append (ip ip' : String) (cmds : List String) (add : Bool) :
    issuedFor ip (cmds ++ (executeFirewallCommand ip' add).toList) =
      issuedFor ip cmds ++
        if ip' = ip ∧ ' ' ∉ ip.data ∧ ';' ∉ ip.data then [firewallCommand ip add] else [] := by
  unfold executeFirewallCommand
  by_cases hr : ' ' ∈ ip'.data ∨ ';' ∈ ip'.data
  · rw [if_pos hr, if_neg (by rintro ⟨rfl, h1, h2⟩; exact hr.elim h1 h2)]
    simp [issuedFor]
  · rw [if_neg hr]
    by_cases he : ip' = ip
    · subst he
      rw [if_pos ⟨rfl, not_or.1 hr⟩]
      cases add <;> simp [issuedFor]
    · have h1 : firewallCommand ip' add ≠ firewallCommand ip true := fun h => he (firewallCommand_ip h)
      have h2 : firewallCommand ip' add ≠ firewallCommand ip false := fun h => he (firewallCommand_ip h)
      rw [if_neg fun h => he h.1]
      simp [issuedFor, h1, h2]

end Commands

section Paired

/-- The commands issued for `ip` so far against its entry: add and remove in turn from an add,
none at all when the adapter rejects `ip`, and otherwise `ip` blocked just after an add. -/
def Paired (ip : String) (m : BlockListManager) : Prop :=
  ∃ n, issuedFor ip m.commands = alternating ip n ∧ ((' ' ∈ ip.data ∨ ';' ∈ ip.data) → n = 0) ∧
    (' ' ∉ ip.data → ';' ∉ ip.data → (ip ∈ m.activeBlocks ↔ n % 2 = 1))

variable {ip : String} {m : BlockListManager} {s : Defense}

theorem paired_empty (ip : String) : Paired ip ⟨∅, []⟩ :=
  ⟨0, rfl, fun _ => rfl, fun _ _ => by simp [AList.not_mem_empty]⟩

theorem Paired.blockIp (h : Paired ip m) (ip' : String) (d now : Int) :
    Paired ip (m.blockIp ip' d now) := by
  unfold BlockListManager.blockIp
  split
  · exact h
  obtain ⟨n, hn, hrej, hmem⟩ := h
  rw [Paired, issuedFor_append, hn]
  by_cases he : ip' = ip ∧ ' ' ∉ ip.data ∧ ';' ∉ ip.data
  · obtain ⟨rfl, h1, h2⟩ := he
    have hev : n % 2 = 0 := by have := (hmem h1 h2).not.1 ‹_›; omega
    refine ⟨n + 1, ?_, fun h => (h.elim h1 h2).elim, fun _ _ => ?_⟩
    · rw [if_pos ⟨rfl, h1, h2⟩, alternating_succ, hev]
      rfl
    · simp only [AList.mem_insert, true_or, true_iff]
      omega
  · refine ⟨n, by rw [if_neg he, List.append_nil], hrej, fun h1 h2 => ?_⟩
    rw [AList.mem_insert, ← hmem h1 h2]
    exact or_iff_right fun e => he ⟨e.symm, h1, h2⟩

theorem Paired.unblockIp (h : Paired ip m) (ip' : String) : Paired ip (m.unblockIp ip') := by
  unfold BlockListManager.unblockIp
  split
  · obtain ⟨n, hn, hrej, hmem⟩ := h
    rw [Paired, issuedFor_append, hn]
    by_cases he : ip' = ip ∧ ' ' ∉ ip.data ∧ ';' ∉ ip.data
    · obtain ⟨rfl, h1, h2⟩ := he
      have hodd : n % 2 = 1 := (hmem h1 h2).1 ‹_›
      refine ⟨n + 1, ?_, fun h => (h.elim h1 h2).elim, fun _ _ => ?_⟩
      · rw [if_pos ⟨rfl, h1, h2⟩, alternating_succ, hodd]
        rfl
      · simp only [AList.mem_erase, ne_eq, not_true_eq_false, false_and, false_iff]
        omega
    · refine ⟨n, by rw [if_neg he, List.append_nil], hrej, fun h1 h2 => ?_⟩
      rw [AList.mem_erase, ← hmem h1 h2]
      exact and_iff_right fun e => he ⟨e.symm, h1, h2⟩
  · exact h

theorem Paired.step (h : Paired ip s.manager) (a : Defense.Act) : Paired ip (s.step a).manager := by
  rcases s.step_manager a with e | ⟨ip', d, e⟩ | ⟨ip', e⟩ <;> rw [e]
  · exact h
  · exact h.blockIp ip' d s.clock
  · exact h.unblockIp ip'

theorem Paired.run : ∀ (acts : List Defense.Act) {s : Defense}, Paired ip s.manager →
    Paired ip (s.run acts).manager
  | [], _, h => h
  | a :: acts, _, h => Paired.run acts (h.step a)

end Paired

/-- Over every interleaving of calls and worker steps from the constructor: for an ip with no
space and no semicolon, the commands issued for it alternate add, remove, … from an add, and it
is blocked exactly when the last was an add; for any other ip none is issued. A repeated
`block_ip` and an `unblock_ip` of an absent ip change nothing. -/
theorem firewall_commands_alternate (clock : Int) (acts : List Defense.Act) (ip : String) :
    let m := ((Defense.init clock).run acts).manager
    ((' ' ∉ ip.data ∧ ';' ∉ ip.data) →
        (∃ n, issuedFor ip m.commands = alternating ip n) ∧
          (m.isBlocked ip ↔ (issuedFor ip m.commands).getLast? = some (firewallCommand ip true))) ∧
      ((' ' ∈ ip.data ∨ ';' ∈ ip.data) → issuedFor ip m.commands = []) ∧
      (∀ d now, ip ∈ m.activeBlocks → m.blockIp ip d now = m) ∧
      (ip ∉ m.activeBlocks → m.unblockIp ip = m) := by
  obtain ⟨n, hn, hrej, hmem⟩ := Paired.run acts (s := Defense.init clock) (paired_empty ip)
  refine ⟨fun ⟨h1, h2⟩ => ⟨⟨n, hn⟩, ?_⟩, fun h => by rw [hn, hrej h]; rfl,
    fun d now h => if_pos h, fun h => if_neg h⟩
  rw [BlockListManager.isBlocked, decide_eq_true_iff, hn, alternating_getLast?]
  exact hmem h1 h2

theorem firewall_commands_alternate_once :
    let m := ((Defense.init 0).run [.blockIp "10.0.0.1" 600]).manager
    (' ' ∉ "10.0.0.1".data ∧ ';' ∉ "10.0.0.1".data) ∧
      issuedFor "10.0.0.1" m.commands = alternating "10.0.0.1" 1 ∧
      (m.isBlocked "10.0.0.1" ↔
        (issuedFor "10.0.0.1" m.commands).getLast? = some (firewallCommand "10.0.0.1" true)) :=
  ⟨by decide, by decide,
    ((firewall_commands_alternate 0 [.blockIp "10.0.0.1" 600] "10.0.0.1").1 (by decide)).2⟩

end Blackbox
