import Prequal.Client.Lifetime
import Prequal.Cluster.Provenance

/-!
# What a query was sent by

A round that a probe has won sends its query to the replica of that probe.  So
behind every such dispatch stands one reply, asked for by the same balancer and
still young, whose reading brought the query where it went.
-/

namespace Prequal

open Foundation Relation

namespace Ledger

variable {cfg : PrequalConfig} {n : Nat} {events : List PoolEvent}

def Won (cfg : PrequalConfig) (events : List PoolEvent) (k : Nat)
    (record : Record) : Prop :=
  ∀ id, record.winner = some id → id < k ∧
    ∃ now random replica resp receivedAt,
      record.event = .round now random ∧
      record.dispatched = some replica ∧
      events[id]? = some (.insert replica resp receivedAt) ∧
      durationSince now receivedAt < fromMillis cfg.probeTtlMs

theorem Won.append {k : Nat} {record : Record} (h : Won cfg events k record)
    (more : List PoolEvent) : Won cfg (events ++ more) k record := by
  intro id hwinner
  obtain ⟨hlt, now, random, replica, resp, receivedAt, hevent, hdispatched,
    hget, hage⟩ := h id hwinner
  refine ⟨hlt, now, random, replica, resp, receivedAt, hevent, hdispatched,
    ?_, hage⟩
  rw [List.getElem?_append_left (List.getElem?_eq_some_iff.mp hget).1, hget]

theorem WithinLimits.record_won {l : Ledger} (h : l.WithinLimits cfg n)
    (e : PoolEvent) :
    Won cfg (l.log.map Record.event) l.log.length (l.record cfg e) := by
  intro id hwinner
  obtain ⟨now, random, i, c, rfl, hidx, hget⟩ := winner_live hwinner
  obtain ⟨hmem, hage, -⟩ := live_mem (List.mem_of_getElem? hget)
  obtain ⟨resp, receivedAt, hinsert, horigin⟩ := h.sourced _ hmem
  have hreceived : c.receivedAt = receivedAt :=
    congrArg Origin.receivedAt horigin
  rw [h.ttl, hreceived] at hage
  refine ⟨mem_entries_born hmem, now, random, c.replica, resp, receivedAt,
    rfl, ?_, hinsert, hage⟩
  cases l.round_outcome cfg now random with
  | fallback hfew hrecord hentries hlength =>
      rw [hrecord] at hwinner
      cases hwinner
  | unwound hrecord hentries =>
      rw [hrecord] at hwinner
      cases hwinner
  | selected i' id' c' charged hidx' hget' hrecord hcharged hentries =>
      rw [hidx] at hidx'
      cases hidx'
      rw [hget] at hget'
      cases hget'
      rw [hrecord]

theorem run_won (cfg : PrequalConfig) (n : Nat) (events : List PoolEvent) :
    ∀ (k : Nat) (record : Record),
      (run cfg n events).log[k]? = some record →
        Won cfg events k record := by
  induction events using List.reverseRecOn with
  | nil => exact fun k record hget => nomatch hget
  | append_singleton past e ih =>
      intro k record hget
      rw [log_concat, getElem?_concat] at hget
      split at hget
      · rename_i hk
        rw [← Option.some.inj hget, hk]
        have hwon := (run_withinLimits cfg n past).record_won e
        rw [run_log] at hwon
        exact hwon.append [e]
      · exact (ih k record hget).append [e]

end Ledger

namespace Cluster

variable {H : Histogram} {sort : SortByKey RingEntry} {dep : Deployment}
  {s s' : Cluster H}

/--
Every dispatch of a pool can be traced to the replies it was decided by.  A
round that returned sent its query to the replica that round chose, and if a
probe won it, that probe came with one exchange of the same balancer, to the
same replica, whose reply was pooled before the round and was younger than the
time to live; it reports a state the replica passed through, and no reply
decides more queries than the reuse budget allows.
-/
theorem decisions_traced (h : Reachable sort dep s) {query : Query}
    (hquery : query ∈ s.queries) {k r : Nat}
    (hround : query.round = some (k, some r)) :
    ∃ b record, s.balancers[query.balancer]? = some b ∧
      (Ledger.run dep.args.config dep.args.n b.events).log[k]? =
        some record ∧
      record.dispatched = some r ∧
      ∀ id, record.winner = some id → id < k ∧
        (Ledger.run dep.args.config dep.args.n b.events).wins id ≤
          dep.args.config.reuseBudget dep.args.n ∧
        ∃ now random x seen st resp receivedAt,
          record.event = .round now random ∧
          durationSince now receivedAt <
            fromMillis dep.args.config.probeTtlMs ∧
          s.Reading sort query.balancer id r x seen st resp receivedAt := by
  obtain ⟨record, ⟨b, hb, hget⟩, hdispatched⟩ :=
    h.logged.decided query hquery k (some r) hround
  refine ⟨b, record, hb, hget, hdispatched, fun id hwinner => ?_⟩
  obtain ⟨hlt, now, random, replica, resp, receivedAt, hevent, hreplica,
    hinsert, hage⟩ := Ledger.run_won _ _ _ k record hget id hwinner
  obtain rfl : r = replica :=
    Option.some.inj (hdispatched.symm.trans hreplica)
  obtain ⟨x, seen, st, hreading⟩ := h.reading hb hinsert
  exact ⟨hlt, (Ledger.run_withinLimits _ _ _).wins_le id, now, random, x,
    seen, st, resp, receivedAt, hevent, hage, hreading⟩

theorem twoPrequal_traced : ∃ s : Cluster Histogram.exact,
    s.queries = [⟨0, .sent ⟨0, some 2, some 0, .waiting⟩⟩] ∧
      ∃ x seen st resp receivedAt,
        s.Reading (.stable _) 0 0 0 x seen st resp receivedAt := by
  obtain ⟨s, hreach, hqueries, -, pool, hbalancers⟩ := twoPrequal_probes
  have hround : (⟨0, .sent ⟨0, some 2, some 0, .waiting⟩⟩ : Query).round =
      some (2, some 0) := rfl
  obtain ⟨b, record, hb, hget, -, hwon⟩ := decisions_traced hreach
    (by rw [hqueries]; exact List.mem_singleton_self _) hround
  rw [hbalancers] at hb
  cases hb
  have hlog : ((Ledger.run twoPrequal.args.config 2
      [.insert 0 ⟨0, 0, 0⟩ 10, .insert 1 ⟨0, 0, 0⟩ 20,
        .round 30 1]).log[2]?).map Record.winner = some (some 0) := by
    decide +kernel
  have hwinner : record.winner = some 0 := by
    rw [show (Ledger.run twoPrequal.args.config 2 _).log[2]? = some record
      from hget] at hlog
    exact Option.some.inj hlog
  obtain ⟨-, -, now, random, x, seen, st, resp, receivedAt, -, -, hreading⟩ :=
    hwon 0 hwinner
  exact ⟨s, hqueries, x, seen, st, resp, receivedAt, hreading⟩

end Cluster

end Prequal
