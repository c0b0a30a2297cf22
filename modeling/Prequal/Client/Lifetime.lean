import Prequal.Client.Ledger

/-!
# Lifetime limits

A probe is spent in `hclSelect` and dropped in `expire`.  Since every round
expires first, a probe that wins is young and has budget left, so neither the
budget nor the range of its use counter is ever exceeded.
-/

namespace Prequal

open Foundation

namespace Ledger

def wins (l : Ledger) (id : Nat) : Nat :=
  l.log.countP fun record => record.winner = some id

/-- A round won by the probe of event `id` happened within its lifetime. -/
def WonYoung (cfg : PrequalConfig) (events : List PoolEvent) (id : Nat)
    (round : PoolEvent) : Prop :=
  ∃ now random replica resp receivedAt,
    round = .round now random ∧
      events[id]? = some (.insert replica resp receivedAt) ∧
      durationSince now receivedAt < fromMillis cfg.probeTtlMs

theorem WonYoung.append {cfg : PrequalConfig} {events : List PoolEvent}
    {id : Nat} {round : PoolEvent} (h : WonYoung cfg events id round)
    (more : List PoolEvent) : WonYoung cfg (events ++ more) id round := by
  obtain ⟨now, random, replica, resp, receivedAt, hround, hget, hage⟩ := h
  refine ⟨now, random, replica, resp, receivedAt, hround, ?_, hage⟩
  rw [List.getElem?_append_left (List.getElem?_eq_some_iff.mp hget).1, hget]

structure WithinLimits (cfg : PrequalConfig) (n : Nat) (l : Ledger) :
    Prop where
  ttl : l.pool.ttl = fromMillis cfg.probeTtlMs
  budget : l.pool.reuseBudget = cfg.reuseBudget n
  sourced : l.Sourced
  spent : ∀ e ∈ l.entries, e.2.uses = l.wins e.1
  wins_le : ∀ id, l.wins id ≤ cfg.reuseBudget n
  young : ∀ record ∈ l.log, ∀ id, record.winner = some id →
    WonYoung cfg (l.log.map Record.event) id record.event

theorem new_withinLimits (cfg : PrequalConfig) (n : Nat) :
    (new cfg n).WithinLimits cfg n where
  ttl := rfl
  budget := rfl
  sourced := nofun
  spent := nofun
  wins_le := fun _ => Nat.zero_le _
  young := nofun

theorem wins_step (cfg : PrequalConfig) (l : Ledger) (e : PoolEvent)
    (id : Nat) :
    (l.step cfg e).wins id =
      l.wins id + if l.winner e = some id then 1 else 0 := by
  rw [wins, step, List.countP_append, List.countP_singleton, wins, record]
  by_cases hwinner : l.winner e = some id
  · rw [if_pos hwinner, if_pos (decide_eq_true hwinner)]
  · rw [if_neg hwinner, if_neg (by simpa using hwinner)]

theorem step_limits (cfg : PrequalConfig) (l : Ledger) (e : PoolEvent) :
    ProbePool.SameLimits l.pool (l.step cfg e).pool := by
  rw [step_pool, ← PoolEvent.run_ops]
  exact ProbePool.run_limits _ _

theorem WithinLimits.wins_next {cfg : PrequalConfig} {n : Nat} {l : Ledger}
    (h : l.WithinLimits cfg n) : l.wins l.log.length = 0 := by
  rw [wins, List.countP_eq_zero]
  intro record hrecord hwinner
  obtain ⟨_, _, _, _, _, -, hget, -⟩ :=
    h.young record hrecord _ (of_decide_eq_true hwinner)
  have hlt := (List.getElem?_eq_some_iff.mp hget).1
  rw [List.length_map] at hlt
  exact lt_irrefl _ hlt

theorem winner_live {l : Ledger} {e : PoolEvent} {id : Nat}
    (h : l.winner e = some id) :
    ∃ now random i c, e = .round now random ∧
      l.pool.roundIdx now = .ok (some i) ∧
      (l.live now)[i]? = some (id, c) := by
  cases e with
  | insert replica resp receivedAt => cases h
  | round now random =>
      simp only [winner] at h
      split at h
      · rename_i i hidx
        obtain ⟨⟨id', c⟩, hget, rfl⟩ := Option.map_eq_some_iff.mp h
        exact ⟨now, random, i, c, rfl, hidx, hget⟩
      · cases h

theorem live_mem {l : Ledger} {now : Instant} {e : Nat × Probe}
    (he : e ∈ l.live now) : e ∈ l.entries ∧
      durationSince now e.2.receivedAt < l.pool.ttl ∧
      e.2.uses < l.pool.reuseBudget := by
  obtain ⟨hmem, halive⟩ := List.mem_filter.mp he
  exact ⟨hmem, ProbePool.alive_iff.mp halive⟩

theorem WithinLimits.step_wins_le {cfg : PrequalConfig} {n : Nat}
    {l : Ledger} (h : l.WithinLimits cfg n) (e : PoolEvent) (id : Nat) :
    (l.step cfg e).wins id ≤ cfg.reuseBudget n := by
  rw [wins_step]
  by_cases hwinner : l.winner e = some id
  · obtain ⟨now, random, i, c, -, -, hget⟩ := winner_live hwinner
    obtain ⟨hmem, -, huses⟩ := live_mem (List.mem_of_getElem? hget)
    rw [h.budget, h.spent _ hmem] at huses
    rw [if_pos hwinner]
    exact huses
  · rw [if_neg hwinner]
    exact h.wins_le id

theorem WithinLimits.step_young {cfg : PrequalConfig} {n : Nat}
    {l : Ledger} (h : l.WithinLimits cfg n) (e : PoolEvent) :
    ∀ record ∈ (l.step cfg e).log, ∀ id, record.winner = some id →
      WonYoung cfg ((l.step cfg e).log.map Record.event) id
        record.event := by
  intro record hrecord id hwinner
  rw [step, List.map_append]
  apply WonYoung.append
  rcases List.mem_append.mp hrecord with hold | hnew
  · exact h.young record hold id hwinner
  · rw [List.mem_singleton.mp hnew] at hwinner ⊢
    obtain ⟨now, random, i, c, rfl, -, hget⟩ := winner_live hwinner
    obtain ⟨hmem, hage, -⟩ := live_mem (List.mem_of_getElem? hget)
    obtain ⟨resp, receivedAt, hinsert, horigin⟩ := h.sourced _ hmem
    have hreceived : c.receivedAt = receivedAt :=
      congrArg Origin.receivedAt horigin
    rw [h.ttl, hreceived] at hage
    exact ⟨now, random, _, resp, receivedAt, rfl, hinsert, hage⟩

theorem live_nodup (l : Ledger) (now : Instant) :
    ((l.live now).map Prod.fst).Nodup := by
  refine (List.filter_sublist.map Prod.fst).nodup ?_
  rw [TaggedPool.entries_map_fst]
  exact l.distinct

theorem live_position {l : Ledger} {now : Instant} {i j id : Nat}
    {c p : Probe} (hi : (l.live now)[i]? = some (id, c))
    (hj : (l.live now)[j]? = some (id, p)) : i = j := by
  refine (List.getElem?_inj ?_ (l.live_nodup now)).mp ?_
  · rw [List.length_map]
    exact (List.getElem?_eq_some_iff.mp hi).1
  · rw [List.getElem?_map, List.getElem?_map, hi, hj]
    rfl

theorem WithinLimits.step_spent {cfg : PrequalConfig} {n : Nat}
    {l : Ledger} (h : l.WithinLimits cfg n) (event : PoolEvent) :
    ∀ e ∈ (l.step cfg event).entries,
      e.2.uses = (l.step cfg event).wins e.1 := by
  intro e he
  rw [wins_step]
  cases event with
  | insert replica resp receivedAt =>
      rw [step_insert_entries, List.mem_append, List.mem_singleton] at he
      rcases he with hold | rfl
      · rw [h.spent e ((swapRemoveAt_subperm _ _).subset hold)]
        rfl
      · rw [h.wins_next]
        rfl
  | round now random =>
      cases l.round_outcome cfg now random with
      | fallback hfew hrecord hentries hlength =>
          have hnone : l.winner (.round now random) = none :=
            congrArg Record.winner hrecord
          rw [hnone, h.spent e (live_mem (hentries.subset he)).1]
          rfl
      | unwound hrecord hentries =>
          have hnone : l.winner (.round now random) = none :=
            congrArg Record.winner hrecord
          rw [hentries] at he
          rw [hnone, h.spent e (live_mem he).1]
          rfl
      | selected i id c charged hidx hget hrecord hcharged hentries =>
          have hsome : l.winner (.round now random) = some id :=
            congrArg Record.winner hrecord
          obtain ⟨j, p, hp, hep⟩ := hcharged.mem (hentries.subset he)
          obtain ⟨hmem, -, hbudget⟩ := live_mem (List.mem_of_getElem? hp)
          have hspent : p.uses = l.wins e.1 := h.spent _ hmem
          have hfits : p.uses + 1 < 2 ^ 32 := by
            have hbudget' : p.uses < l.pool.reuseBudget := hbudget
            have hmax := cfg.reuseBudget_le n
            rw [← h.budget, u32Max] at hmax
            omega
          rw [hsome, hep, Probe.compensate_uses]
          by_cases hij : i = j
          · subst hij
            obtain ⟨hid, -⟩ := Prod.mk.inj
              (Option.some.inj (hget.symm.trans hp))
            rw [if_pos rfl, if_pos (congrArg some hid), ← hspent]
            exact wrapU32_of_lt hfits
          · have hid : some id ≠ some e.1 := by
              intro hid
              rw [Option.some.injEq] at hid
              subst hid
              exact hij (live_position hget hp)
            rw [if_neg hij, if_neg hid, hspent]
            rfl

theorem WithinLimits.step {cfg : PrequalConfig} {n : Nat} {l : Ledger}
    (h : l.WithinLimits cfg n) (e : PoolEvent) :
    (l.step cfg e).WithinLimits cfg n := by
  obtain ⟨-, httl, hbudget, -⟩ := l.step_limits cfg e
  exact
    { ttl := httl.trans h.ttl
      budget := hbudget.trans h.budget
      sourced := h.sourced.step cfg e
      spent := h.step_spent e
      wins_le := h.step_wins_le e
      young := h.step_young e }

theorem run_withinLimits (cfg : PrequalConfig) (n : Nat)
    (events : List PoolEvent) : (run cfg n events).WithinLimits cfg n :=
  foldl_history (step cfg) (fun _ => WithinLimits cfg n) (new cfg n)
    (new_withinLimits cfg n) (fun _ e _ h => h.step e) events

theorem WithinLimits.uses_le {cfg : PrequalConfig} {n : Nat} {l : Ledger}
    (h : l.WithinLimits cfg n) :
    ∀ p ∈ l.pool.probes, p.uses ≤ cfg.reuseBudget n := by
  intro p hp
  rw [← entries_map_snd] at hp
  obtain ⟨e, he, rfl⟩ := List.mem_map.mp hp
  rw [h.spent e he]
  exact h.wins_le e.1

theorem WithinLimits.winner_fits {cfg : PrequalConfig} {n : Nat}
    {l : Ledger} (h : l.WithinLimits cfg n) {now : Instant} {c : Probe}
    (hc : l.pool.roundWinner now = some c) : c.uses + 1 ≤ u32Max := by
  have hmem : c ∈ (l.pool.expire now).probes := by
    rw [ProbePool.roundWinner] at hc
    split at hc
    · exact List.mem_of_getElem? hc
    · cases hc
  have halive := (List.mem_filter.mp hmem).2
  have huses := (ProbePool.alive_iff.mp halive).2
  rw [h.budget] at huses
  exact huses.trans_le (cfg.reuseBudget_le n)

/--
Lifetime limits over whole runs: a probe wins at most `reuseBudget` rounds and
none at the end of its life, its use counter stays within the budget and never
wraps, and expiry drops nothing that is young and has budget left.
-/
theorem lifetime_limits (cfg : PrequalConfig) (n : Nat)
    (events : List PoolEvent) :
    let l := run cfg n events
    l.pool = events.foldl (PoolEvent.apply cfg) (cfg.newPool n) ∧
      l.log.map Record.event = events ∧
      (∀ id, l.wins id ≤ cfg.reuseBudget n) ∧
      (∀ record ∈ l.log, ∀ id, record.winner = some id →
        WonYoung cfg events id record.event) ∧
      (∀ p ∈ l.pool.probes, p.uses ≤ cfg.reuseBudget n) ∧
      (∀ now c, l.pool.roundWinner now = some c → c.uses + 1 ≤ u32Max) ∧
      (∀ e ∈ l.entries, e.2.uses = l.wins e.1) ∧
      ∀ now, (l.pool.expire now).probes = l.pool.probes.filter fun p =>
        durationSince now p.receivedAt < fromMillis cfg.probeTtlMs ∧
          p.uses < cfg.reuseBudget n := by
  intro l
  have h : l.WithinLimits cfg n := run_withinLimits cfg n events
  have hlog : l.log.map Record.event = events := run_log _ _ _
  refine ⟨run_pool _ _ _, hlog, h.wins_le, ?_, h.uses_le,
    fun now c hc => h.winner_fits hc, h.spent, ?_⟩
  · rw [← hlog]
    exact h.young
  · intro now
    rw [← h.ttl, ← h.budget]
    rfl

end Ledger

end Prequal
