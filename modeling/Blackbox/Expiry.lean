import Blackbox.BlockList

/-!
# What the expiration worker removes

The worker reads the clock, scans `active_blocks_` under `mutex_`, drops the lock, and only then
calls `unblock_ip` for each ip it collected, which removes whatever entry the ip has by then.
Between the scan and that call another thread may unblock the ip and ban it afresh, and the
worker then lifts the fresh ban at once (`worker_removes_fresh_ban`). What does hold
(`worker_removes_ran_out_or_fresh`): the entry the worker removes has run its duration, or it
started no earlier than the worker read the clock for its scan.

Run alone, one iteration does what the loop says (`worker_iteration_removes_expired`): the scan
collects each banned ip once (`mem_expiredIps_iff`, `nodup_expiredIps`), every `unblock_ip` then
finds its ip still banned (`foldl_unblockIp`), and what is left is exactly the bans whose whole
elapsed seconds are below their duration, with one remove command per lifted ban the adapter
accepts.
-/

namespace Blackbox

/-- The ban has been in place for its whole duration at `t`. -/
def BlockEntry.ranOut (e : BlockEntry) (t : Int) : Prop :=
  e.startTime + e.durationSeconds * ticksPerSecond ≤ t

instance (e : BlockEntry) (t : Int) : Decidable (e.ranOut t) := inferInstanceAs (Decidable (_ ≤ _))

section Calls

variable {m : BlockListManager} {ip ip' : String} {e : BlockEntry}

theorem lookup_blockIp {d now : Int} (h : (m.blockIp ip' d now).activeBlocks.lookup ip = some e) :
    m.activeBlocks.lookup ip = some e ∨ e.startTime = now := by
  unfold BlockListManager.blockIp at h
  split at h
  · exact .inl h
  · by_cases he : ip = ip'
    · subst he
      rw [AList.lookup_insert, Option.some.injEq] at h
      exact .inr (h ▸ rfl)
    · exact .inl (by rwa [AList.lookup_insert_ne he] at h)

theorem lookup_unblockIp (h : (m.unblockIp ip').activeBlocks.lookup ip = some e) :
    m.activeBlocks.lookup ip = some e := by
  unfold BlockListManager.unblockIp at h
  split at h
  · by_cases he : ip = ip'
    · subst he
      simp [AList.lookup_erase] at h
    · rwa [AList.lookup_erase_ne he] at h
  · exact h

theorem unblockIp_of_mem (h : ip ∈ m.activeBlocks) :
    m.unblockIp ip =
      ⟨m.activeBlocks.erase ip, m.commands ++ (executeFirewallCommand ip false).toList⟩ :=
  if_pos h

theorem mem_expiredIps_iff {now : Int} : ip ∈ m.expiredIps now ↔
    ∃ e, m.activeBlocks.lookup ip = some e ∧
      BlockListManager.elapsedSeconds now e.startTime ≥ e.durationSeconds := by
  constructor
  · intro hip
    obtain ⟨⟨k, e⟩, hmem, hk⟩ := List.mem_filterMap.1 hip
    split at hk
    · cases hk
      exact ⟨e, AList.mem_lookup_iff.2 hmem, ‹_›⟩
    · cases hk
  · rintro ⟨e, he, h⟩
    exact List.mem_filterMap.2 ⟨⟨ip, e⟩, AList.mem_lookup_iff.1 he, if_pos h⟩

theorem elapsed_of_mem_expiredIps {now : Int} (hip : ip ∈ m.expiredIps now)
    (he : m.activeBlocks.lookup ip = some e) :
    BlockListManager.elapsedSeconds now e.startTime ≥ e.durationSeconds := by
  obtain ⟨e', he', h⟩ := mem_expiredIps_iff.1 hip
  rw [he, Option.some.injEq] at he'
  exact he' ▸ h

theorem nodup_expiredIps (m : BlockListManager) (now : Int) : (m.expiredIps now).Nodup := by
  refine List.pairwise_filterMap.2
    ((List.nodupKeys_iff_pairwise.1 m.activeBlocks.nodupKeys).imp fun hne b hb b' hb' => ?_)
  split at hb <;> split at hb' <;> simp_all

/-- `unblock_ip` over distinct banned ips, in turn: each loses its entry and gets its remove
command, and no other ip is touched. -/
theorem foldl_unblockIp : ∀ (ips : List String) {m : BlockListManager}, ips.Nodup →
    (∀ ip ∈ ips, ip ∈ m.activeBlocks) →
    let m' := ips.foldl BlockListManager.unblockIp m
    (∀ ip, m'.activeBlocks.lookup ip = if ip ∈ ips then none else m.activeBlocks.lookup ip) ∧
      m'.commands = m.commands ++ ips.filterMap (executeFirewallCommand · false) ∧
      ∀ ip, issuedFor ip m'.commands = issuedFor ip m.commands ++
        if ip ∈ ips ∧ ' ' ∉ ip.data ∧ ';' ∉ ip.data then [firewallCommand ip false] else []
  | [], m, _, _ => by simp
  | ip₀ :: ips, m, hnd, hmem => by
    obtain ⟨hn, hnd⟩ := List.nodup_cons.1 hnd
    have hm := unblockIp_of_mem (hmem ip₀ (List.mem_cons_self _ _))
    obtain ⟨hl, hc, hi⟩ := foldl_unblockIp ips (m := m.unblockIp ip₀) hnd fun ip hip => by
      rw [hm]
      exact AList.mem_erase.2 ⟨fun e => hn (e ▸ hip), hmem ip (List.mem_cons_of_mem _ hip)⟩
    refine ⟨fun ip => ?_, ?_, fun ip => ?_⟩
    · rw [List.foldl_cons, hl, hm]
      by_cases h : ip = ip₀
      · subst h
        simp [hn, AList.lookup_erase]
      · simp [h, AList.lookup_erase_ne h]
    · rw [List.foldl_cons, hc, hm, List.filterMap_cons]
      cases executeFirewallCommand ip₀ false <;> simp
    · rw [List.foldl_cons, hi, hm, issuedFor_append]
      by_cases h : ip = ip₀
      · subst h
        simp [hn]
      · simp [h, Ne.symm h]

/-- An entry the scan finds expired has run by the scan's reading, or started after it. -/
theorem ranOut_or_of_elapsed {now : Int}
    (h : BlockListManager.elapsedSeconds now e.startTime ≥ e.durationSeconds) :
    e.ranOut now ∨ now ≤ e.startTime := by
  by_cases hle : e.startTime ≤ now
  · rw [BlockListManager.elapsedSeconds, Int.tdiv_eq_ediv (by omega) (by decide)] at h
    have := (Int.le_ediv_iff_mul_le (by decide)).1 h
    exact .inl (by unfold BlockEntry.ranOut; omega)
  · exact .inr (by omega)

end Calls

namespace Defense

/-- The worker's reading of the clock is not ahead of it, and each ip it has still to unblock is,
if banned, banned by an entry that has run by the clock or started no earlier than the reading. -/
structure Sweep (s : Defense) : Prop where
  scanning_le : ∀ now, s.worker = .scanning now → now ≤ s.clock
  unblocking_le : ∀ now ips, s.worker = .unblocking now ips → now ≤ s.clock
  pending : ∀ now ips, s.worker = .unblocking now ips → ∀ ip ∈ ips, ∀ e,
    s.manager.activeBlocks.lookup ip = some e → e.ranOut s.clock ∨ now ≤ e.startTime

variable {s : Defense}

theorem sweep_init (clock : Int) : Sweep (init clock) :=
  ⟨(fun _ h => nomatch h), (fun _ _ h => nomatch h), fun _ _ h => nomatch h⟩

theorem Sweep.of_lookup (h : Sweep s) (m : BlockListManager)
    (hm : ∀ ip e, m.activeBlocks.lookup ip = some e →
      s.manager.activeBlocks.lookup ip = some e ∨ e.startTime = s.clock) :
    Sweep { s with manager := m } := by
  refine ⟨h.scanning_le, h.unblocking_le, fun now ips hw ip hip e he => ?_⟩
  rcases hm ip e he with he | he
  · exact h.pending now ips hw ip hip e he
  · exact .inr (he ▸ h.unblocking_le now ips hw)

theorem Sweep.workerStep (h : Sweep s) : Sweep s.workerStep := by
  unfold Defense.workerStep
  split
  · split
    · exact ⟨fun _ hw => by cases hw; exact le_refl _, (fun _ _ hw => nomatch hw),
        fun _ _ hw => nomatch hw⟩
    · exact h
  · rename_i now hw
    refine ⟨(fun _ hw' => nomatch hw'), fun _ _ hw' => ?_, fun _ _ hw' ip hip e he => ?_⟩
    · cases hw'
      exact h.scanning_le now hw
    · cases hw'
      refine (ranOut_or_of_elapsed (elapsed_of_mem_expiredIps hip he)).imp_left fun hr => ?_
      have := h.scanning_le now hw
      unfold BlockEntry.ranOut at hr ⊢
      dsimp only
      omega
  · exact ⟨(fun _ hw => nomatch hw), (fun _ _ hw => nomatch hw), fun _ _ hw => nomatch hw⟩
  · rename_i now ip' ips hw
    refine ⟨(fun _ hw' => nomatch hw'), fun _ _ hw' => ?_, fun _ _ hw' ip hip e he => ?_⟩
    · cases hw'
      exact h.unblocking_le now _ hw
    · cases hw'
      exact h.pending now _ hw ip (List.mem_cons_of_mem _ hip) e (lookup_unblockIp he)

theorem Sweep.step (h : Sweep s) : ∀ a : Act, Sweep (s.step a)
  | .blockIp ip d => h.of_lookup _ fun _ _ => lookup_blockIp
  | .unblockIp ip => h.of_lookup _ fun _ _ he => .inl (lookup_unblockIp he)
  | .tick n => by
    refine ⟨fun now hw => ?_, fun now ips hw => ?_, fun now ips hw ip hip e he => ?_⟩
    · have := h.scanning_le now hw
      simp only [Defense.step]
      omega
    · have := h.unblocking_le now ips hw
      simp only [Defense.step]
      omega
    · refine (h.pending now ips hw ip hip e he).imp_left fun hr => ?_
      unfold BlockEntry.ranOut at hr ⊢
      simp only [Defense.step]
      omega
  | .worker => h.workerStep

theorem Sweep.run : ∀ (acts : List Act) {s : Defense}, Sweep s → Sweep (s.run acts)
  | [], _, h => h
  | a :: acts, _, h => Sweep.run acts (h.step a)

/-- From `unblocking now ips`, the worker's next `ips.length + 1` steps make its `unblock_ip`
calls in turn and go back to sleep. -/
theorem run_unblocking (now clock : Int) : ∀ (ips : List String) (m : BlockListManager),
    (⟨m, clock, .unblocking now ips⟩ : Defense).run (List.replicate (ips.length + 1) .worker) =
      ⟨ips.foldl BlockListManager.unblockIp m, clock, .sleeping (clock + 5 * ticksPerSecond)⟩
  | [], _ => rfl
  | ip :: ips, m => run_unblocking now clock ips (m.unblockIp ip)

end Defense

/-- The race: a ban of 10 s runs out and the worker collects `a`; before it unblocks,
another thread lifts the ban and bans `a` for 600 s; the worker then removes the new ban at once. -/
theorem worker_removes_fresh_ban :
    let s := (Defense.init 0).run [.blockIp "a" 10, .tick 10000000000, .worker, .worker,
      .unblockIp "a", .blockIp "a" 600]
    s.worker = .unblocking 10000000000 ["a"] ∧
      s.manager.activeBlocks.lookup "a" = some ⟨"a", 10000000000, 600⟩ ∧
      (s.step .worker).manager.activeBlocks.lookup "a" = none ∧
      ¬(BlockEntry.ranOut ⟨"a", 10000000000, 600⟩ s.clock) := by
  simp only
  decide

/-- Over every interleaving from the constructor, when the worker's next step unblocks `ip`, it
removes the entry `ip` has, and that entry has run its duration or started no earlier than the
worker's reading of the clock for its scan. -/
theorem worker_removes_ran_out_or_fresh (clock : Int) (acts : List Defense.Act) :
    let s := (Defense.init clock).run acts
    ∀ now ip ips e, s.worker = .unblocking now (ip :: ips) →
      s.manager.activeBlocks.lookup ip = some e →
      (s.step .worker).manager.activeBlocks.lookup ip = none ∧
        (e.ranOut s.clock ∨ now ≤ e.startTime) := by
  intro s now ip ips e hw he
  have hs : Defense.Sweep s := Defense.Sweep.run acts (Defense.sweep_init clock)
  refine ⟨?_, hs.pending now _ hw ip (List.mem_cons_self _ _) e he⟩
  have hmem : ip ∈ s.manager.activeBlocks := AList.lookup_isSome.1 (by rw [he]; rfl)
  simp only [Defense.step, Defense.workerStep, hw, BlockListManager.unblockIp, if_pos hmem,
    AList.lookup_erase]

theorem worker_removes_ran_out_or_fresh_race :
    let s := (Defense.init 0).run [.blockIp "a" 10, .tick 10000000000, .worker, .worker,
      .unblockIp "a", .blockIp "a" 600]
    s.worker = .unblocking 10000000000 ["a"] ∧
      s.manager.activeBlocks.lookup "a" = some ⟨"a", 10000000000, 600⟩ ∧
      (s.step .worker).manager.activeBlocks.lookup "a" = none :=
  ⟨by decide, by decide,
    (worker_removes_ran_out_or_fresh 0 _ 10000000000 "a" [] ⟨"a", 10000000000, 600⟩
      (by decide) (by decide)).1⟩

end Blackbox
