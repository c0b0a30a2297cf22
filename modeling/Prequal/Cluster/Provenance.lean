import Prequal.Cluster.Probing

/-!
# The history of a pool

Each event of a pool belongs to one task of the cluster: an insertion to the
probe whose reply it stored, a round to the query it was run for.  Nothing
enters a pool that a query of its own balancer has not asked for.
-/

namespace Prequal

open Foundation Relation

/-! ## Records by number -/

namespace Ledger

variable {cfg : PrequalConfig} {n : Nat} {events : List PoolEvent}

theorem length_log (cfg : PrequalConfig) (n : Nat)
    (events : List PoolEvent) : (run cfg n events).log.length =
      events.length := by
  rw [← run_log cfg n events, List.length_map, run_log]

theorem log_concat (cfg : PrequalConfig) (n : Nat) (events : List PoolEvent)
    (e : PoolEvent) : (run cfg n (events ++ [e])).log =
      (run cfg n events).log ++ [(run cfg n events).record cfg e] := by
  rw [run, List.foldl_append]
  rfl

theorem pool_run (cfg : PrequalConfig) (n : Nat) (events : List PoolEvent) :
    (run cfg n events).pool = cfg.poolAfter n events :=
  run_pool cfg n events

end Ledger

def Recorded (args : RunArgs) (balancers : List Balancer) (i k : Nat)
    (record : Record) : Prop :=
  ∃ b, balancers[i]? = some b ∧
    (Ledger.run args.config args.n b.events).log[k]? = some record

section Recorded

variable {args : RunArgs} {balancers : List Balancer} {i j k : Nat}
  {b b' : Balancer} {record : Record}

theorem recorded_iff (hb : balancers[i]? = some b) :
    Recorded args balancers i k record ↔
      (Ledger.run args.config args.n b.events).log[k]? = some record := by
  constructor
  · rintro ⟨b', hb', hget⟩
    rw [hb, Option.some.injEq] at hb'
    rwa [hb']
  · exact fun hget => ⟨b, hb, hget⟩

theorem Recorded.lt (h : Recorded args balancers i k record)
    (hb : balancers[i]? = some b) : k < b.events.length := by
  rw [recorded_iff hb] at h
  rw [← Ledger.length_log args.config args.n]
  exact (List.getElem?_eq_some_iff.mp h).1

theorem Recorded.event (h : Recorded args balancers i k record)
    (hb : balancers[i]? = some b) : b.events[k]? = some record.event := by
  rw [recorded_iff hb] at h
  rw [← Ledger.run_log args.config args.n b.events, List.getElem?_map, h]
  rfl

theorem recorded_set (hb : balancers[i]? = some b)
    (hevents : b'.events = b.events) :
    Recorded args (balancers.set i b') j k record ↔
      Recorded args balancers j k record := by
  simp only [Recorded, getElem?_set_of_some hb]
  by_cases hij : i = j
  · subst hij
    simp [hb, hevents]
  · simp [hij]

theorem recorded_concat (hb : balancers[i]? = some b) {e : PoolEvent}
    (hevents : b'.events = b.events ++ [e]) :
    Recorded args (balancers.set i b') j k record ↔
      (j = i ∧ k = b.events.length ∧ record =
        (Ledger.run args.config args.n b.events).record args.config e) ∨
      Recorded args balancers j k record := by
  by_cases hij : i = j
  · subst hij
    have hb' : (balancers.set i b')[i]? = some b' := by
      rw [getElem?_set_of_some hb, if_pos rfl]
    rw [recorded_iff hb', recorded_iff hb, hevents, Ledger.log_concat,
      getElem?_concat, Ledger.length_log]
    split
    · rename_i hk
      subst hk
      have hnone : (Ledger.run args.config args.n b.events).log[
          b.events.length]? = none := by
        rw [List.getElem?_eq_none_iff, Ledger.length_log]
      simp [hnone, eq_comm]
    · rename_i hk
      simp [hk]
  · have hne : j ≠ i := fun h => hij h.symm
    simp only [Recorded, getElem?_set_of_some hb, if_neg hij, hne, false_and,
      false_or]

theorem Recorded.concat (h : Recorded args balancers j k record)
    (hb : balancers[i]? = some b) {e : PoolEvent}
    (hevents : b'.events = b.events ++ [e]) :
    Recorded args (balancers.set i b') j k record :=
  (recorded_concat hb hevents).mpr (.inr h)

end Recorded

/-! ## Owners of events -/

def PoolEvent.isRound : PoolEvent → Bool
  | .insert .. => false
  | .round .. => true

def eventKeys (args : RunArgs) (kind : PoolEvent → Bool)
    (balancers : List Balancer) : Set (Nat × Nat) :=
  {key | ∃ record, Recorded args balancers key.1 key.2 record ∧
    kind record.event = true}

section EventKeys

variable {args : RunArgs} {kind : PoolEvent → Bool}
  {balancers : List Balancer} {i : Nat} {b b' : Balancer}

theorem eventKeys_set (hb : balancers[i]? = some b)
    (hevents : b'.events = b.events) :
    eventKeys args kind (balancers.set i b') =
      eventKeys args kind balancers := by
  ext key
  simp only [eventKeys, Set.mem_ofPred_eq, recorded_set hb hevents]

theorem eventKeys_issue (hb : balancers[i]? = some b) {e : PoolEvent}
    (hevents : b'.events = b.events ++ [e]) (hkind : kind e = true) :
    eventKeys args kind (balancers.set i b') =
      insert (i, b.events.length) (eventKeys args kind balancers) := by
  ext ⟨j, k⟩
  simp only [eventKeys, Set.mem_insert_iff, Set.mem_ofPred_eq,
    recorded_concat hb hevents, Prod.mk.injEq]
  constructor
  · rintro ⟨record, ⟨rfl, rfl, -⟩ | hold, hrecord⟩
    · exact .inl ⟨rfl, rfl⟩
    · exact .inr ⟨record, hold, hrecord⟩
  · rintro (⟨rfl, rfl⟩ | ⟨record, hold, hrecord⟩)
    · exact ⟨_, .inl ⟨rfl, rfl, rfl⟩, hkind⟩
    · exact ⟨record, .inr hold, hrecord⟩

theorem eventKeys_skip (hb : balancers[i]? = some b) {e : PoolEvent}
    (hevents : b'.events = b.events ++ [e]) (hkind : kind e = false) :
    eventKeys args kind (balancers.set i b') =
      eventKeys args kind balancers := by
  ext ⟨j, k⟩
  simp only [eventKeys, Set.mem_ofPred_eq, recorded_concat hb hevents]
  constructor
  · rintro ⟨record, ⟨-, -, rfl⟩ | hold, hrecord⟩
    · rw [Ledger.record, hkind] at hrecord
      cases hrecord
    · exact ⟨record, hold, hrecord⟩
  · rintro ⟨record, hold, hrecord⟩
    exact ⟨record, .inr hold, hrecord⟩

theorem next_notMem_eventKeys (hb : balancers[i]? = some b) :
    (i, b.events.length) ∉ eventKeys args kind balancers := by
  rintro ⟨record, hrecorded, -⟩
  exact lt_irrefl _ (hrecorded.lt hb)

end EventKeys

/-- The number of the round of a query and the replica that round chose. -/
def Query.round (query : Query) : Option (Nat × Option Nat) :=
  match query.phase with
  | .sent d => d.event.map fun k => (k, some d.replica)
  | .unwound k => some (k, none)
  | .spawned | .triggered | .comparing _ => none

def Query.event (query : Query) : Option (Nat × Nat) :=
  query.round.map fun round => (query.balancer, round.1)

def Exchange.event (x : Exchange) : Option (Nat × Nat) :=
  match x.phase with
  | .pooled _ _ _ k => some (x.balancer, k)
  | .requested | .loaded _ | .answered .. | .lost | .fetched .. => none

theorem Query.round_of_sent {query : Query} {d : Dispatch}
    (h : query.phase = .sent d) :
    query.round = d.event.map fun k => (k, some d.replica) := by
  rw [round, h]

theorem Query.round_of_unsent {query : Query}
    (h : query.phase = .spawned ∨ query.phase = .triggered ∨
      ∃ first, query.phase = .comparing first) : query.round = none := by
  rcases h with h | h | ⟨first, h⟩ <;> rw [round, h]

theorem Exchange.event_eq_some {x : Exchange} {key : Nat × Nat} :
    x.event = some key ↔ ∃ seen resp receivedAt,
      x.phase = .pooled seen resp receivedAt key.2 ∧ x.balancer = key.1 := by
  obtain ⟨i, k⟩ := key
  unfold event
  cases x.phase <;> simp
  exact and_comm

namespace Cluster

variable {H : Histogram} {sort : SortByKey RingEntry} {dep : Deployment}
  {s s' : Cluster H}

theorem Selects.logs {args : RunArgs} {n q self : Nat}
    {exchanges fired : List Exchange} {b b' : Balancer} {query : Query}
    {phase : QueryPhase}
    (h : Selects n exchanges q self b query.phase b' phase fired)
    (hb : b.Valid args) :
    query.round = none ∧
      ((b'.events = b.events ∧
          ({ query with phase := phase } : Query).round = none) ∨
        ∃ now random, b'.events = b.events ++ [.round now random] ∧
          ({ query with phase := phase } : Query).round =
            some (b.events.length, ((Ledger.run args.config args.n
              b.events).record args.config (.round now random)).dispatched)) := by
  generalize hphase : query.phase = old at h
  cases h with
  | pick r policy hpick =>
      exact ⟨Query.round_of_unsent (.inl hphase), .inl ⟨rfl, rfl⟩⟩
  | trigger pool cfg targets hpolicy hdistinct hcount hbelow =>
      exact ⟨Query.round_of_unsent (.inl hphase), .inl ⟨rfl, rfl⟩⟩
  | compare x y hpolicy hx hy =>
      exact ⟨Query.round_of_unsent (.inl hphase), .inl ⟨rfl, rfl⟩⟩
  | decide first xa xb pa pb hpolicy ha hb' hpa hpb =>
      exact ⟨Query.round_of_unsent (.inr (.inr ⟨first, hphase⟩)),
        .inl ⟨rfl, rfl⟩⟩
  | round pool pool' cfg now random r hpolicy hrandom hexec =>
      refine ⟨Query.round_of_unsent (.inr (.inl hphase)), .inr
        ⟨now, random, rfl, ?_⟩⟩
      rw [hb.pool_eq hpolicy, hb.cfg_eq hpolicy] at hexec
      rw [Ledger.record, PoolEvent.dispatched, Ledger.pool_run, hexec]
      rfl
  | unwind pool pool' cfg now random e hpolicy hrandom hexec =>
      refine ⟨Query.round_of_unsent (.inr (.inl hphase)), .inr
        ⟨now, random, rfl, ?_⟩⟩
      rw [hb.pool_eq hpolicy, hb.cfg_eq hpolicy] at hexec
      rw [Ledger.record, PoolEvent.dispatched, Ledger.pool_run, hexec]
      rfl

theorem Probes.unstored {st : ReplicaState} {x : Exchange}
    {phase : ExchangePhase} (h : Probes sort st x phase) :
    x.event = none ∧ ({ x with phase := phase } : Exchange).event = none := by
  cases h with
  | load hphase => exact ⟨by rw [Exchange.event, hphase], rfl⟩
  | answer seen utilEma now resp hphase hprobe =>
      exact ⟨by rw [Exchange.event, hphase], rfl⟩
  | fetch seen resp hsync hphase =>
      exact ⟨by rw [Exchange.event, hphase], rfl⟩
  | lose hpending =>
      refine ⟨?_, rfl⟩
      cases hphase : x.phase with
      | pooled seen resp receivedAt k =>
          rw [hphase] at hpending
          cases hpending
      | _ => rw [Exchange.event, hphase]

/-- Every event has its owner, and the owner knows what it recorded. -/
structure Logged (args : RunArgs) (s : Cluster H) : Prop where
  rounds : Issued Query.event s.queries
    (eventKeys args PoolEvent.isRound s.balancers)
  inserts : Issued Exchange.event s.exchanges
    (eventKeys args (fun e => !e.isRound) s.balancers)
  decided : ∀ query ∈ s.queries, ∀ k choice,
    query.round = some (k, choice) →
      ∃ record, Recorded args s.balancers query.balancer k record ∧
        record.dispatched = choice
  stored : ∀ x ∈ s.exchanges, ∀ seen resp receivedAt k,
    x.phase = .pooled seen resp receivedAt k →
      ∃ record, Recorded args s.balancers x.balancer k record ∧
        record.event = .insert x.replica resp receivedAt

theorem Logged.start {now : Instant} (h : Cluster.start H dep now = .ok s) :
    s.Logged dep.args := by
  obtain ⟨balancers, hbalancers, rfl⟩ := start_ok h
  obtain ⟨-, b, hnew, rfl⟩ := RunArgs.startBalancers_ok hbalancers
  have hempty : ∀ kind, eventKeys dep.args kind
      (List.replicate (max dep.args.balancers 1) b) = ∅ := by
    intro kind
    rw [Set.eq_empty_iff_forall_notMem]
    rintro ⟨i, k⟩ ⟨record, ⟨b', hb', hget⟩, -⟩
    rw [List.eq_of_mem_replicate (List.mem_of_getElem? hb'),
      Balancer.new_events hnew] at hget
    cases hget
  refine ⟨?_, ?_, by simp, by simp⟩
  · rw [hempty]
    exact .nil
  · rw [hempty]
    exact .nil

theorem Logged.set_query {args : RunArgs} {q : Nat} {query query' : Query}
    (h : s.Logged args) (hquery : s.queries[q]? = some query)
    (hqueries : s'.queries = s.queries.set q query')
    (hexchanges : s'.exchanges = s.exchanges)
    (hbalancers : s'.balancers = s.balancers)
    (hbalancer : query'.balancer = query.balancer)
    (hround : query'.round = query.round) : s'.Logged args := by
  obtain ⟨hrounds, hinserts, hdecided, hstored⟩ := h
  constructor
  · rw [hqueries, hbalancers]
    refine hrounds.set hquery ?_
    rw [Query.event, Query.event, hround, hbalancer]
  · rwa [hexchanges, hbalancers]
  · rw [hqueries, hbalancers]
    refine forall_mem_set hdecided ?_
    rw [hround, hbalancer]
    exact hdecided query (List.mem_of_getElem? hquery)
  · rwa [hexchanges, hbalancers]

private theorem Logged.keep {args : RunArgs} {balancers : List Balancer}
    (h : s.Logged args) (hkeep : ∀ i k record,
      Recorded args s.balancers i k record →
        Recorded args balancers i k record) :
    (∀ query ∈ s.queries, ∀ k choice, query.round = some (k, choice) →
      ∃ record, Recorded args balancers query.balancer k record ∧
        record.dispatched = choice) ∧
    ∀ x ∈ s.exchanges, ∀ seen resp receivedAt k,
      x.phase = .pooled seen resp receivedAt k →
        ∃ record, Recorded args balancers x.balancer k record ∧
          record.event = .insert x.replica resp receivedAt := by
  constructor
  · intro query hquery k choice hround
    obtain ⟨record, hrecord, hchoice⟩ :=
      h.decided query hquery k choice hround
    exact ⟨record, hkeep _ _ _ hrecord, hchoice⟩
  · intro x hx seen resp receivedAt k hphase
    obtain ⟨record, hrecord, hevent⟩ :=
      h.stored x hx seen resp receivedAt k hphase
    exact ⟨record, hkeep _ _ _ hrecord, hevent⟩

theorem Logged.step (h : s.Logged dep.args) (hwired : s.Wired dep)
    (hstep : Step sort dep.args s s') : s'.Logged dep.args := by
  have ⟨hrounds, hinserts, hdecided, hstored⟩ := h
  cases hstep with
  | spawn b hb =>
      refine ⟨hrounds.append (by simp [Query.event, Query.round]), hinserts,
        ?_, hstored⟩
      intro query hquery k choice hround
      rcases List.mem_append.mp hquery with hold | hnew
      · exact hdecided query hold k choice hround
      · rw [List.mem_singleton.mp hnew] at hround
        cases hround
  | select q query b b' phase fired hquery hb hselects =>
      have hmem := List.mem_of_getElem? hquery
      have hfired : ∀ x ∈ fired, x.event = none := by
        intro x hx
        rw [Exchange.event, (hselects.fired_wired x hx).2.2.2]
      have hunstored : ∀ x ∈ fired, ∀ seen resp receivedAt k,
          x.phase ≠ .pooled seen resp receivedAt k := by
        intro x hx seen resp receivedAt k
        rw [(hselects.fired_wired x hx).2.2.2]
        exact nofun
      obtain ⟨hunrun, ⟨hevents, hround⟩ | ⟨now, random, hevents, hround⟩⟩ :=
        hselects.logs (hwired.valid b (List.mem_of_getElem? hb))
      · obtain ⟨hdecided', hstored'⟩ := h.keep fun _ _ _ hrecord =>
          (recorded_set hb hevents).mpr hrecord
        refine ⟨?_, ?_, forall_mem_set hdecided' ?_, ?_⟩
        · rw [eventKeys_set hb hevents]
          refine hrounds.set hquery ?_
          rw [Query.event, Query.event, hround, hunrun]
        · rw [eventKeys_set hb hevents]
          exact hinserts.append hfired
        · intro k choice hsome
          rw [hround] at hsome
          cases hsome
        · intro x hx seen resp receivedAt k hphase
          rcases List.mem_append.mp hx with hold | hnew
          · exact hstored' x hold seen resp receivedAt k hphase
          · exact absurd hphase (hunstored x hnew seen resp receivedAt k)
      · obtain ⟨hdecided', hstored'⟩ := h.keep fun _ _ _ hrecord =>
          hrecord.concat hb hevents
        refine ⟨?_, ?_, forall_mem_set hdecided' ?_, ?_⟩
        · rw [eventKeys_issue hb hevents rfl]
          refine hrounds.issue hquery ?_ ?_ (next_notMem_eventKeys hb)
          · rw [Query.event, hunrun]
            rfl
          · rw [Query.event, hround]
            rfl
        · rw [eventKeys_skip hb hevents rfl]
          exact hinserts.append hfired
        · intro k choice hsome
          rw [hround] at hsome
          cases hsome
          exact ⟨_, (recorded_concat hb hevents).mpr (.inl ⟨rfl, rfl, rfl⟩),
            rfl⟩
        · intro x hx seen resp receivedAt k hphase
          rcases List.mem_append.mp hx with hold | hnew
          · exact hstored' x hold seen resp receivedAt k hphase
          · exact absurd hphase (hunstored x hnew seen resp receivedAt k)
  | probe e x st phase hx hst hprobes =>
      refine ⟨hrounds, hinserts.set hx ?_, hdecided,
        forall_mem_set hstored ?_⟩
      · rw [hprobes.unstored.1, hprobes.unstored.2]
      · intro seen resp receivedAt k hphase
        have hnone := hprobes.unstored.2
        rw [Exchange.event, hphase] at hnone
        cases hnone
  | deliver e x b pool cfg seen resp receivedAt hx hsync hphase hb hpolicy =>
      have hevents : (b.enter (.insert x.replica resp receivedAt)
          (pool.exec (Balancer.insertResponse x.replica resp
            receivedAt)).2 cfg).events =
          b.events ++ [.insert x.replica resp receivedAt] := rfl
      obtain ⟨hdecided', hstored'⟩ := h.keep fun _ _ _ hrecord =>
        hrecord.concat hb hevents
      refine ⟨?_, ?_, hdecided', forall_mem_set hstored' ?_⟩
      · rw [eventKeys_skip hb hevents rfl]
        exact hrounds
      · rw [eventKeys_issue hb hevents rfl]
        refine hinserts.issue hx ?_ rfl (next_notMem_eventKeys hb)
        rw [Exchange.event, hphase]
      · intro seen' resp' receivedAt' k hphase'
        cases hphase'
        exact ⟨_, (recorded_concat hb hevents).mpr (.inl ⟨rfl, rfl, rfl⟩),
          rfl⟩
  | accept q query d st now hquery hphase hhandler hst =>
      refine h.set_query hquery rfl rfl rfl rfl ?_
      rw [Query.round_of_sent hphase, Query.round_of_sent rfl]
  | serve r st st' hst hserve hclosed =>
      exact ⟨hrounds, hinserts, hdecided, hstored⟩
  | succeed q i query d st handler latencyUs hquery hphase hwaiting hhandler
      hst hget hcompleted =>
      refine h.set_query hquery rfl rfl rfl rfl ?_
      rw [Query.round_of_sent hphase, Query.round_of_sent rfl]
  | fail q query d hquery hphase hwaiting =>
      refine h.set_query hquery rfl rfl rfl rfl ?_
      rw [Query.round_of_sent hphase, Query.round_of_sent rfl]
  | refresh i b weights weights' fetched hb hpolicy hrefresh =>
      have hevents : ({ b with policy := .wrr weights' } : Balancer).events =
          b.events := rfl
      obtain ⟨hdecided', hstored'⟩ := h.keep fun _ _ _ hrecord =>
        (recorded_set hb hevents).mpr hrecord
      refine ⟨?_, ?_, hdecided', hstored'⟩
      · rw [eventKeys_set hb hevents]
        exact hrounds
      · rw [eventKeys_set hb hevents]
        exact hinserts

theorem Reachable.logged (h : Reachable sort dep s) : s.Logged dep.args :=
  h.invariant (fun _ _ => Logged.start)
    fun _ _ hreach hs hstep => hs.step hreach.wired hstep

/-! ## Pooled readings -/

/--
Exchange `x` has brought event `id` of balancer `i` the reply `resp`, which
reports state `seen` of replica `r`; the replica has reached `st` since.
-/
structure Reading (sort : SortByKey RingEntry) (s : Cluster H) (i id r : Nat)
    (x : Exchange) (seen st : ReplicaState) (resp : ProbeResponse)
    (receivedAt : Instant) : Prop where
  fired : x ∈ s.exchanges
  balancer : x.balancer = i
  replica : x.replica = r
  asked : ∃ query, s.queries[x.query]? = some query ∧ query.balancer = i
  stored : x.phase = .pooled seen resp receivedAt id
  serving : s.replicas[r]? = some st
  read : seen.ReadFrom sort resp st
  counted : resp.rif = wrapU32 seen.live

theorem Reachable.reading (h : Reachable sort dep s) {i : Nat} {b : Balancer}
    (hb : s.balancers[i]? = some b) {id r : Nat} {resp : ProbeResponse}
    {receivedAt : Instant}
    (hget : b.events[id]? = some (.insert r resp receivedAt)) :
    ∃ x seen st, s.Reading sort i id r x seen st resp receivedAt := by
  have hlogged := h.logged
  rw [← Ledger.run_log dep.args.config dep.args.n b.events,
    List.getElem?_map, Option.map_eq_some_iff] at hget
  obtain ⟨record, hrecord, hevent⟩ := hget
  have hkey : (i, id) ∈ eventKeys dep.args (fun e => !e.isRound)
      s.balancers := ⟨record, ⟨b, hb, hrecord⟩, by rw [hevent]; rfl⟩
  obtain ⟨e, x, hx, hholds⟩ := hlogged.inserts.exists_holder hkey
  have hmem := List.mem_of_getElem? hx
  obtain ⟨seen, resp', receivedAt', hphase, hbalancer⟩ :=
    Exchange.event_eq_some.mp hholds
  -- The record of the event is the insertion of this very reply.
  obtain ⟨record', hrecorded', hevent'⟩ :=
    hlogged.stored x hmem seen resp' receivedAt' id hphase
  rw [hbalancer, recorded_iff hb, hrecord, Option.some.injEq] at hrecorded'
  rw [← hrecorded', hevent, PoolEvent.insert.injEq] at hevent'
  obtain ⟨hreplica, rfl, rfl⟩ := hevent'
  obtain ⟨query, hquery, hself⟩ := h.fannedOut.owned x hmem
  have hlt := (h.wired.exchanges x hmem).1
  rw [← h.wired.replicas] at hlt
  obtain ⟨st, hst⟩ : ∃ st, s.replicas[x.replica]? = some st :=
    ⟨_, List.getElem?_eq_getElem hlt⟩
  obtain ⟨a, ha, -⟩ := h.wired.reachable _ _ hst
  have htruthful := h.truthful x hmem a st ha hst
  rw [Exchange.Truthful, hphase] at htruthful
  refine ⟨x, seen, st, hmem, hbalancer, hreplica.symm,
    ⟨query, hquery, hself.trans hbalancer⟩, hphase, by rw [hreplica, hst],
    htruthful.2, ?_⟩
  exact htruthful.2.rif.trans htruthful.1.accounted.counted

theorem Reachable.entry_reading (h : Reachable sort dep s) {i : Nat}
    {b : Balancer} (hb : s.balancers[i]? = some b) {id : Nat} {p : Probe}
    (hp : (id, p) ∈
      (Ledger.run dep.args.config dep.args.n b.events).entries) :
    ∃ x seen st resp receivedAt,
      s.Reading sort i id p.replica x seen st resp receivedAt ∧
      p.origin = (Probe.fresh p.replica resp receivedAt).origin := by
  obtain ⟨resp, receivedAt, hget, horigin⟩ :=
    Ledger.run_sourced dep.args.config dep.args.n b.events _ hp
  rw [Ledger.run_log] at hget
  obtain ⟨x, seen, st, hreading⟩ := h.reading hb hget
  exact ⟨x, seen, st, resp, receivedAt, hreading, horigin⟩

/--
The pool of a balancer is what its events make of it, and each event belongs to
one task: a round to the one query it dispatched, an insertion to the one probe
whose reply it stored.  What the pool holds was asked for by a query of its own
balancer and reports a state the replica really passed through.
-/
theorem pool_provenance (h : Reachable sort dep s) {i : Nat} {b : Balancer}
    {pool : ProbePool} {cfg : PrequalConfig}
    (hb : s.balancers[i]? = some b) (hpolicy : b.policy = .prequal pool cfg) :
    let l := Ledger.run dep.args.config dep.args.n b.events
    l.pool = pool ∧ l.entries.map Prod.snd = pool.probes ∧
      (l.entries.map Prod.fst).Nodup ∧
      (∀ (k : Nat) (record : Record), l.log[k]? = some record →
        if record.event.isRound then
          ∃! q : Nat, ∃ query, s.queries[q]? = some query ∧
            query.balancer = i ∧ query.round = some (k, record.dispatched)
        else
          ∃! e : Nat, ∃ x, s.exchanges[e]? = some x ∧ x.balancer = i ∧
            ∃ seen resp receivedAt,
              x.phase = .pooled seen resp receivedAt k ∧
              record.event = .insert x.replica resp receivedAt) ∧
      ∀ id p, (id, p) ∈ l.entries → ∃ x seen st resp receivedAt,
        s.Reading sort i id p.replica x seen st resp receivedAt ∧
        p.origin = (Probe.fresh p.replica resp receivedAt).origin := by
  intro l
  have hlogged := h.logged
  have hpool : l.pool = pool :=
    (Ledger.pool_run _ _ _).trans
      ((h.wired.valid b (List.mem_of_getElem? hb)).pool_eq hpolicy).symm
  refine ⟨hpool, ?_, ?_, ?_, fun id p hp => h.entry_reading hb hp⟩
  · rw [← hpool]
    exact l.entries_map_snd
  · rw [TaggedPool.entries_map_fst]
    exact l.distinct
  · intro k record hrecord
    have hrecorded : Recorded dep.args s.balancers i k record :=
      ⟨b, hb, hrecord⟩
    split
    · rename_i hround
      obtain ⟨q, ⟨query, hquery, hevent⟩, hunique⟩ :=
        hlogged.rounds.existsUnique_holder (k := (i, k))
          ⟨record, hrecorded, hround⟩
      obtain ⟨⟨k', choice⟩, hsome, hkey⟩ := Option.map_eq_some_iff.mp hevent
      obtain ⟨hbalancer, rfl⟩ := Prod.mk.inj hkey
      obtain ⟨record', hrecorded', hchoice⟩ := hlogged.decided query
        (List.mem_of_getElem? hquery) _ _ hsome
      rw [hbalancer, recorded_iff hb, hrecord, Option.some.injEq]
        at hrecorded'
      refine ⟨q, ⟨query, hquery, hbalancer, ?_⟩, ?_⟩
      · rw [hsome, hrecorded', hchoice]
      · rintro q' ⟨query', hquery', hbalancer', hsome'⟩
        refine hunique q' ⟨query', hquery', ?_⟩
        rw [Query.event, hsome', hbalancer']
        rfl
    · rename_i hround
      obtain ⟨e, ⟨x, hx, hevent⟩, hunique⟩ :=
        hlogged.inserts.existsUnique_holder (k := (i, k))
          ⟨record, hrecorded, by simpa using hround⟩
      obtain ⟨seen, resp, receivedAt, hphase, hbalancer⟩ :=
        Exchange.event_eq_some.mp hevent
      obtain ⟨record', hrecorded', hinsert⟩ := hlogged.stored x
        (List.mem_of_getElem? hx) _ _ _ _ hphase
      rw [hbalancer, recorded_iff hb, hrecord, Option.some.injEq]
        at hrecorded'
      refine ⟨e, ⟨x, hx, hbalancer, seen, resp, receivedAt, hphase, ?_⟩, ?_⟩
      · rw [hrecorded', hinsert]
      · rintro e' ⟨x', hx', hbalancer', seen', resp', receivedAt', hphase', -⟩
        refine hunique e' ⟨x', hx', ?_⟩
        rw [Exchange.event, hphase', hbalancer']

theorem twoPrequal_provenance : ∃ s : Cluster Histogram.exact,
    s.queries = [⟨0, .sent ⟨0, some 2, some 0, .waiting⟩⟩] ∧
      ∃ b, s.balancers[0]? = some b ∧ ∀ id p, (id, p) ∈
        (Ledger.run twoPrequal.args.config 2 b.events).entries →
          ∃ x seen st resp receivedAt,
            s.Reading (.stable _) 0 id p.replica x seen st resp receivedAt ∧
            p.origin = (Probe.fresh p.replica resp receivedAt).origin := by
  obtain ⟨s, hreach, hqueries, -, pool, hbalancers⟩ := twoPrequal_probes
  have hb := congrArg (fun balancers => balancers[0]?) hbalancers
  exact ⟨s, hqueries, _, hb, (pool_provenance hreach hb rfl).2.2.2.2⟩

end Cluster

end Prequal
