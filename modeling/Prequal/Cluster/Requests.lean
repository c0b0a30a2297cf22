import Prequal.Cluster.Model
import Prequal.Servers.Readings

/-!
# Queries, handlers and the metrics

What holds in every state the cluster can reach, whatever the order of its
steps.  Every index names a replica, a handler serves the one query it was
accepted for, and the collector has counted each settled query once.
-/

namespace Prequal

open Foundation Relation
open scoped List

namespace Cluster

variable {H : Histogram} {sort : SortByKey RingEntry} {dep : Deployment}
  {s s' : Cluster H}

/-! ## Indices -/

structure Wired (dep : Deployment) (s : Cluster H) : Prop where
  enough : 2 ≤ dep.args.n
  replicas : s.replicas.length = dep.args.n
  reachable : ∀ (r : Nat) (st : ReplicaState), s.replicas[r]? = some st →
    ∃ a, dep.replicas[r]? = some a ∧ st.Reachable a.slots
  valid : ∀ b ∈ s.balancers, b.Valid dep.args
  below : ∀ b ∈ s.balancers, EventsBelow dep.args.n b.events
  queries : ∀ query ∈ s.queries, query.balancer < s.balancers.length
  exchanges : ∀ x ∈ s.exchanges,
    x.replica < dep.args.n ∧ x.balancer < s.balancers.length
  sent : ∀ query ∈ s.queries, ∀ d, query.phase = .sent d →
    d.replica < dep.args.n

theorem Wired.start {now : Instant} (h : Cluster.start H dep now = .ok s) :
    s.Wired dep := by
  obtain ⟨balancers, hbalancers, rfl⟩ := start_ok h
  obtain ⟨henough, b, hnew, rfl⟩ := RunArgs.startBalancers_ok hbalancers
  have hb : b.Valid dep.args := Balancer.new_valid (by omega) hnew
  constructor
  · exact henough
  · rw [List.length_map, dep.aligned]
  · intro r st hst
    rw [List.getElem?_map, Option.map_eq_some_iff] at hst
    obtain ⟨a, ha, rfl⟩ := hst
    exact ⟨a, ha, .initial⟩
  · intro b' hb'
    rw [List.eq_of_mem_replicate hb']
    exact hb
  · intro b' hb'
    rw [List.eq_of_mem_replicate hb', Balancer.new_events hnew]
    simp [EventsBelow]
  · simp
  · simp
  · simp

section Selects

variable {n q self : Nat} {exchanges fired : List Exchange} {b b' : Balancer}
  {phase phase' : QueryPhase}

theorem Selects.unsent
    (h : Selects n exchanges q self b phase b' phase' fired) (d : Dispatch) :
    phase ≠ .sent d := by
  cases h <;> simp

theorem Selects.fresh
    (h : Selects n exchanges q self b phase b' phase' fired) {d : Dispatch}
    (hd : phase' = .sent d) : d.handler = none ∧ d.outcome = .waiting := by
  cases h <;> cases hd <;> exact ⟨rfl, rfl⟩

theorem Selects.fired_wired
    (h : Selects n exchanges q self b phase b' phase' fired) :
    ∀ x ∈ fired, x.query = q ∧ x.balancer = self ∧ x.replica < n ∧
      x.phase = .requested := by
  intro x hx
  cases h with
  | trigger _ _ targets _ _ _ hbelow =>
      obtain ⟨r, hr, rfl⟩ := List.mem_map.mp hx
      exact ⟨rfl, rfl, hbelow r hr, rfl⟩
  | compare x y hpolicy hx' hy =>
      have hpair := (Po2.pair_bijOn n).mapsTo (x := (x, y)) ⟨hx', hy⟩
      rcases List.mem_pair.mp hx with rfl | rfl
      · exact ⟨rfl, rfl, hpair.1, rfl⟩
      · exact ⟨rfl, rfl, hpair.2.1, rfl⟩
  | _ => cases hx

theorem Selects.valid {args : RunArgs}
    (h : Selects args.n exchanges q self b phase b' phase' fired)
    (hb : b.Valid args) : b'.Valid args := by
  cases h with
  | pick r policy hpick => exact hpick.valid hb
  | round pool pool' cfg now random r hpolicy hrandom hexec =>
      exact hb.enter hpolicy (congrArg Prod.snd hexec).symm
  | unwind pool pool' cfg now random e hpolicy hrandom hexec =>
      exact hb.enter hpolicy (congrArg Prod.snd hexec).symm
  | _ => exact hb

theorem Selects.below
    (h : Selects n exchanges q self b phase b' phase' fired)
    (hb : EventsBelow n b.events) : EventsBelow n b'.events := by
  cases h with
  | round pool pool' cfg now random r hpolicy hrandom hexec =>
      exact hb.concat (by simp [PoolEvent.inserted])
  | unwind pool pool' cfg now random e hpolicy hrandom hexec =>
      exact hb.concat (by simp [PoolEvent.inserted])
  | _ => exact hb

theorem Selects.lt {args : RunArgs} {d : Dispatch}
    (h : Selects args.n exchanges q self b phase b' phase' fired)
    (hn : 2 ≤ args.n) (hb : b.Valid args)
    (hbelow : EventsBelow args.n b.events)
    (hexchanges : ∀ x ∈ exchanges, x.replica < args.n)
    (hd : phase' = .sent d) : d.replica < args.n := by
  cases h with
  | pick r policy hpick =>
      cases hd
      exact hpick.lt (by omega) hb
  | round pool pool' cfg now random r hpolicy hrandom hexec =>
      cases hd
      rw [hb.pool_eq hpolicy, hb.cfg_eq hpolicy] at hexec
      exact hbelow.select_lt hrandom hexec
  | decide first xa xb pa pb hpolicy ha hb' hpa hpb =>
      cases hd
      have hxa := hexchanges xa (List.mem_of_getElem? ha)
      have hxb := hexchanges xb (List.mem_of_getElem? hb')
      rcases Po2.choose_mem xa.replica xb.replica pa pb with hc | hc
      · exact hc.trans_lt hxa
      · exact hc.trans_lt hxb
  | trigger => cases hd
  | unwind => cases hd
  | compare => cases hd

theorem Selects.not_unwound {args : RunArgs}
    (h : Selects args.n exchanges q self b phase b' phase' fired)
    (hb : b.Valid args) (hq : args.config.qRif ≤ 1) (e : Nat) :
    phase' ≠ .unwound e := by
  cases h with
  | unwind pool pool' cfg now random e' hpolicy hrandom hexec =>
      rw [hb.pool_eq hpolicy, hb.cfg_eq hpolicy] at hexec
      exact absurd hexec (PrequalConfig.select_ok hq)
  | _ => simp

end Selects

private theorem reachable_set {r : Nat} {st st' : ReplicaState}
    (h : ∀ (r : Nat) (st : ReplicaState), s.replicas[r]? = some st →
      ∃ a, dep.replicas[r]? = some a ∧ st.Reachable a.slots)
    (hst : s.replicas[r]? = some st) (hstep : st.Step st') :
    ∀ (r' : Nat) (st'' : ReplicaState),
      (s.replicas.set r st')[r']? = some st'' →
      ∃ a, dep.replicas[r']? = some a ∧ st''.Reachable a.slots := by
  intro r' st'' hget
  rw [getElem?_set_of_some hst] at hget
  split at hget
  · rename_i heq
    obtain ⟨a, ha, hreach⟩ := h r st hst
    rw [← Option.some.inj hget, ← heq]
    exact ⟨a, ha, hreach.step hstep⟩
  · exact h r' st'' hget

private theorem sent_set {n q : Nat} {query : Query} {d d' : Dispatch}
    (h : ∀ query ∈ s.queries, ∀ d, query.phase = .sent d → d.replica < n)
    (hquery : s.queries[q]? = some query) (hphase : query.phase = .sent d)
    (hreplica : d'.replica = d.replica) :
    ∀ query' ∈ s.queries.set q { query with phase := .sent d' },
      ∀ d, query'.phase = .sent d → d.replica < n := by
  refine forall_mem_set h fun d₁ hd₁ => ?_
  cases hd₁
  rw [hreplica]
  exact h query (List.mem_of_getElem? hquery) d hphase

theorem Wired.step (h : s.Wired dep) (hstep : Step sort dep.args s s') :
    s'.Wired dep := by
  obtain ⟨henough, hreplicas, hreachable, hvalid, hbelow, hqueries,
    hexchanges, hsent⟩ := h
  cases hstep with
  | spawn b hb =>
      refine ⟨henough, hreplicas, hreachable, hvalid, hbelow, ?_, hexchanges,
        ?_⟩
      · intro query hquery
        rcases List.mem_append.mp hquery with hold | hnew
        · exact hqueries query hold
        · rw [List.mem_singleton.mp hnew]
          exact hb
      · intro query hquery d hd
        rcases List.mem_append.mp hquery with hold | hnew
        · exact hsent query hold d hd
        · rw [List.mem_singleton.mp hnew] at hd
          cases hd
  | select q query b b' phase fired hquery hb hselects =>
      have hmem := List.mem_of_getElem? hb
      have hlt := hqueries query (List.mem_of_getElem? hquery)
      refine ⟨henough, hreplicas, hreachable,
        forall_mem_set hvalid (hselects.valid (hvalid b hmem)),
        forall_mem_set hbelow (hselects.below (hbelow b hmem)), ?_, ?_, ?_⟩
      · rw [List.length_set]
        exact forall_mem_set hqueries hlt
      · rw [List.length_set]
        intro x hx
        rcases List.mem_append.mp hx with hold | hnew
        · exact hexchanges x hold
        · obtain ⟨-, hself, hreplica, -⟩ := hselects.fired_wired x hnew
          exact ⟨hreplica, hself ▸ hlt⟩
      · refine forall_mem_set hsent fun d hd => ?_
        exact hselects.lt henough (hvalid b hmem) (hbelow b hmem)
          (fun x hx => (hexchanges x hx).1) hd
  | probe e x st phase hx hst hprobes =>
      refine ⟨henough, hreplicas, hreachable, hvalid, hbelow, hqueries,
        forall_mem_set hexchanges ?_, hsent⟩
      exact hexchanges x (List.mem_of_getElem? hx)
  | deliver e x b pool cfg seen resp receivedAt hx hsync hphase hb hpolicy =>
      have hmem := List.mem_of_getElem? hb
      have hwired := hexchanges x (List.mem_of_getElem? hx)
      refine ⟨henough, hreplicas, hreachable,
        forall_mem_set hvalid ((hvalid b hmem).enter hpolicy rfl),
        forall_mem_set hbelow ((hbelow b hmem).concat ?_), ?_, ?_, hsent⟩
      · simpa [PoolEvent.inserted, Probe.fresh] using hwired.1
      · rw [List.length_set]
        exact hqueries
      · rw [List.length_set]
        exact forall_mem_set hexchanges hwired
  | accept q query d st now hquery hphase hhandler hst =>
      have hmem := List.mem_of_getElem? hquery
      refine ⟨henough, by rw [List.length_set, hreplicas],
        reachable_set hreachable hst (.arrive st now), hvalid, hbelow,
        forall_mem_set hqueries (hqueries query hmem), hexchanges,
        sent_set hsent hquery hphase rfl⟩
  | serve r st st' hst hserve hclosed =>
      exact ⟨henough, by rw [List.length_set, hreplicas],
        reachable_set hreachable hst hserve, hvalid, hbelow, hqueries,
        hexchanges, hsent⟩
  | succeed q i query d st handler latencyUs hquery hphase hwaiting hhandler
      hst hget hcompleted =>
      have hmem := List.mem_of_getElem? hquery
      refine ⟨henough, hreplicas, hreachable, hvalid, hbelow,
        forall_mem_set hqueries (hqueries query hmem), hexchanges,
        sent_set hsent hquery hphase rfl⟩
  | fail q query d hquery hphase hwaiting =>
      have hmem := List.mem_of_getElem? hquery
      refine ⟨henough, hreplicas, hreachable, hvalid, hbelow,
        forall_mem_set hqueries (hqueries query hmem), hexchanges,
        sent_set hsent hquery hphase rfl⟩
  | refresh i b weights weights' fetched hb hpolicy hrefresh =>
      have hmem := List.mem_of_getElem? hb
      refine ⟨henough, hreplicas, hreachable,
        forall_mem_set hvalid ((hvalid b hmem).refresh hpolicy hrefresh),
        forall_mem_set hbelow (hbelow b hmem), ?_, ?_, hsent⟩
      · rw [List.length_set]
        exact hqueries
      · rw [List.length_set]
        exact hexchanges

theorem Reachable.wired (h : Reachable sort dep s) : s.Wired dep :=
  h.invariant (fun _ _ => Wired.start) fun _ _ _ hs hstep => hs.step hstep

end Cluster

/-! ## Handlers -/

namespace Query

def dispatch (query : Query) : Option Dispatch :=
  match query.phase with
  | .sent d => some d
  | .spawned | .triggered | .comparing _ | .unwound _ => none

def destination (query : Query) : Option Nat :=
  query.dispatch.map Dispatch.replica

def accepted (query : Query) : Option (Nat × Nat) :=
  query.dispatch.bind fun d => d.handler.map fun i => (d.replica, i)

def report (query : Query) : Option Report :=
  query.dispatch.bind fun d =>
    match d.outcome with
    | .waiting => none
    | .succeeded latencyUs => some (.success d.replica latencyUs)
    | .failed => some .failure

theorem dispatch_of_sent {query : Query} {d : Dispatch}
    (h : query.phase = .sent d) : query.dispatch = some d := by
  rw [dispatch, h]

theorem destination_of_sent {query : Query} {d : Dispatch}
    (h : query.phase = .sent d) : query.destination = some d.replica := by
  rw [destination, dispatch_of_sent h]
  rfl

theorem dispatch_eq_some {query : Query} {d : Dispatch} :
    query.dispatch = some d ↔ query.phase = .sent d := by
  unfold dispatch
  cases query.phase <;> simp

theorem accepted_of_sent {query : Query} {d : Dispatch}
    (h : query.phase = .sent d) :
    query.accepted = d.handler.map fun i => (d.replica, i) := by
  rw [accepted, dispatch_of_sent h, Option.bind_some]

theorem dispatch_of_unsent {query : Query}
    (h : ∀ d, query.phase ≠ .sent d) : query.dispatch = none := by
  rw [Option.eq_none_iff_forall_ne_some]
  intro d hd
  exact h d (dispatch_eq_some.mp hd)

end Query

namespace Cluster

variable {H : Histogram} {sort : SortByKey RingEntry} {dep : Deployment}
  {s s' : Cluster H}

def handlerKeys (replicas : List ReplicaState) : Set (Nat × Nat) :=
  {k | ∃ st, replicas[k.1]? = some st ∧ k.2 < st.handlers.length}

section HandlerKeys

variable {replicas : List ReplicaState} {r : Nat} {st st' : ReplicaState}

theorem handlerKeys_set (hst : replicas[r]? = some st)
    (hlength : st'.handlers.length = st.handlers.length) :
    handlerKeys (replicas.set r st') = handlerKeys replicas := by
  ext ⟨r', i⟩
  simp only [handlerKeys, Set.mem_ofPred_eq, getElem?_set_of_some hst]
  by_cases heq : r = r'
  · subst heq
    simp [hst, hlength]
  · simp [heq]

theorem handlerKeys_arrive (hst : replicas[r]? = some st)
    (hlength : st'.handlers.length = st.handlers.length + 1) :
    handlerKeys (replicas.set r st') =
      insert (r, st.handlers.length) (handlerKeys replicas) := by
  ext ⟨r', i⟩
  simp only [handlerKeys, Set.mem_insert_iff, Set.mem_ofPred_eq,
    getElem?_set_of_some hst, Prod.mk.injEq]
  by_cases heq : r = r'
  · subst heq
    simp [hst, hlength]
    omega
  · have hne : r' ≠ r := fun h => heq h.symm
    simp [heq, hne]

theorem next_notMem_handlerKeys (hst : replicas[r]? = some st) :
    (r, st.handlers.length) ∉ handlerKeys replicas := by
  rintro ⟨st', hst', hlt⟩
  rw [hst, Option.some.injEq] at hst'
  subst hst'
  exact lt_irrefl _ hlt

end HandlerKeys

/-- Each handler serves one query, and what succeeded has been served. -/
structure Served (s : Cluster H) : Prop where
  issued : Issued Query.accepted s.queries (handlerKeys s.replicas)
  sampled : ∀ query ∈ s.queries, ∀ d latencyUs, query.phase = .sent d →
    d.outcome = .succeeded latencyUs → ∃ i st, d.handler = some i ∧
      s.replicas[d.replica]? = some st ∧ i ∈ st.samples.map Prod.fst

theorem Served.start {now : Instant} (h : Cluster.start H dep now = .ok s) :
    s.Served := by
  obtain ⟨balancers, -, rfl⟩ := start_ok h
  refine ⟨?_, by simp⟩
  have hnone : handlerKeys (dep.replicas.map fun args =>
      ReplicaState.new args.slots) = ∅ := by
    ext ⟨r, i⟩
    simp only [handlerKeys, List.getElem?_map, Set.mem_ofPred_eq,
      Set.mem_empty_iff_false, iff_false]
    rintro ⟨st, hst, hlt⟩
    obtain ⟨a, -, rfl⟩ := Option.map_eq_some_iff.mp hst
    exact Nat.not_lt_zero _ hlt
  rw [hnone]
  exact .nil

private theorem sampled_set {r i r' : Nat} {st st' st'' : ReplicaState}
    {replicas : List ReplicaState} (hst : replicas[r]? = some st)
    (hlater : st.Later st') (hget : replicas[r']? = some st'')
    (hmem : i ∈ st''.samples.map Prod.fst) :
    ∃ st₁, (replicas.set r st')[r']? = some st₁ ∧
      i ∈ st₁.samples.map Prod.fst := by
  rw [getElem?_set_of_some hst]
  by_cases heq : r = r'
  · subst heq
    rw [hst, Option.some.injEq] at hget
    subst hget
    exact ⟨st', if_pos rfl, List.map_subset _ hlater.samples hmem⟩
  · exact ⟨st'', by rw [if_neg heq, hget], hmem⟩

theorem Served.step (h : s.Served) (hwired : s.Wired dep)
    (hstep : Step sort dep.args s s') : s'.Served := by
  obtain ⟨hissued, hsampled⟩ := h
  cases hstep with
  | spawn b hb =>
      refine ⟨hissued.append (by simp [Query.accepted, Query.dispatch]), ?_⟩
      intro query hquery d latencyUs hd
      rcases List.mem_append.mp hquery with hold | hnew
      · exact hsampled query hold d latencyUs hd
      · rw [List.mem_singleton.mp hnew] at hd
        cases hd
  | select q query b b' phase fired hquery hb hselects =>
      have hbefore : query.accepted = none := by
        rw [Query.accepted, Query.dispatch_of_unsent hselects.unsent]
        rfl
      have hafter : ({ query with phase := phase } : Query).accepted =
          none := by
        cases phase with
        | sent d =>
            rw [Query.accepted_of_sent rfl, (hselects.fresh rfl).1]
            rfl
        | _ => rfl
      refine ⟨hissued.set hquery (hafter.trans hbefore.symm), ?_⟩
      refine forall_mem_set hsampled fun d latencyUs hd houtcome => ?_
      rw [(hselects.fresh hd).2] at houtcome
      cases houtcome
  | probe e x st phase hx hst hprobes => exact ⟨hissued, hsampled⟩
  | deliver e x b pool cfg seen resp receivedAt hx hsync hphase hb hpolicy =>
      exact ⟨hissued, hsampled⟩
  | accept q query d st now hquery hphase hhandler hst =>
      have hkeys : handlerKeys (s.replicas.set d.replica (st.arrive now)) =
          insert (d.replica, st.handlers.length) (handlerKeys s.replicas) :=
        handlerKeys_arrive hst (by simp [ReplicaState.arrive])
      refine ⟨?_, ?_⟩
      · rw [hkeys]
        refine hissued.issue hquery ?_ rfl (next_notMem_handlerKeys hst)
        rw [Query.accepted_of_sent hphase, hhandler]
        rfl
      · intro query' hquery' d' latencyUs hd' houtcome
        rcases List.mem_or_eq_of_mem_set hquery' with hold | rfl
        · obtain ⟨i, st', hi, hst', hmem⟩ :=
            hsampled query' hold d' latencyUs hd' houtcome
          obtain ⟨st₁, hst₁, hmem₁⟩ := sampled_set hst
            (ReplicaState.Step.arrive st now).later hst' hmem
          exact ⟨i, st₁, hi, hst₁, hmem₁⟩
        · -- A query that has succeeded has been accepted before.
          cases hd'
          obtain ⟨i, -, hi, -⟩ := hsampled query
            (List.mem_of_getElem? hquery) d latencyUs hphase houtcome
          rw [hhandler] at hi
          cases hi
  | serve r st st' hst hserve hclosed =>
      refine ⟨?_, ?_⟩
      · rw [handlerKeys_set hst hclosed]
        exact hissued
      · intro query hquery d latencyUs hd houtcome
        obtain ⟨i, st₀, hi, hst₀, hmem⟩ :=
          hsampled query hquery d latencyUs hd houtcome
        obtain ⟨st₁, hst₁, hmem₁⟩ := sampled_set hst hserve.later hst₀ hmem
        exact ⟨i, st₁, hi, hst₁, hmem₁⟩
  | succeed q i query d st handler latencyUs hquery hphase hwaiting hhandler
      hst hget hcompleted =>
      refine ⟨hissued.set hquery ?_, ?_⟩
      · rw [Query.accepted_of_sent hphase, Query.accepted_of_sent rfl]
      · refine forall_mem_set hsampled fun d' latencyUs' hd' _ => ?_
        cases hd'
        obtain ⟨a, -, hreach⟩ := hwired.reachable d.replica st hst
        exact ⟨i, st, hhandler, hst,
          hreach.accounted.faithful.exhaustive i handler hget hcompleted⟩
  | fail q query d hquery hphase hwaiting =>
      refine ⟨hissued.set hquery ?_, ?_⟩
      · rw [Query.accepted_of_sent hphase, Query.accepted_of_sent rfl]
      · refine forall_mem_set hsampled fun d' latencyUs' hd' houtcome => ?_
        cases hd'
        cases houtcome
  | refresh i b weights weights' fetched hb hpolicy hrefresh =>
      exact ⟨hissued, hsampled⟩

theorem Reachable.served (h : Reachable sort dep s) : s.Served :=
  h.invariant (fun _ _ => Served.start)
    fun _ _ hreach hs hstep => hs.step hreach.wired hstep

/-! ## Reports -/

/-- The collector has heard of every settled query once. -/
structure Reported (n : Nat) (s : Cluster H) : Prop where
  perm : s.reports ~ s.queries.filterMap Query.report
  aggregates : MetricsCollector.Aggregates n s.reports s.metrics

theorem Reported.start {now : Instant}
    (h : Cluster.start H dep now = .ok s) : s.Reported dep.args.n := by
  obtain ⟨balancers, -, rfl⟩ := start_ok h
  exact ⟨.refl _, MetricsCollector.new_aggregates H dep.args.n now⟩

private theorem reports_settle {q : Nat} {query query' : Query} {e : Report}
    (h : s.reports ~ s.queries.filterMap Query.report)
    (hquery : s.queries[q]? = some query) (hbefore : query.report = none)
    (hafter : query'.report = some e) :
    s.reports ++ [e] ~
      (s.queries.set q query').filterMap Query.report := by
  obtain ⟨hset, hold⟩ := filterMap_set_perm Query.report hquery query'
  rw [hbefore, Option.toList_none, List.nil_append] at hold
  rw [hafter, Option.toList_some] at hset
  exact (List.perm_append_comm.trans
    ((h.trans hold).append_left [e])).trans hset.symm

private theorem reports_keep {q : Nat} {query query' : Query}
    (h : s.reports ~ s.queries.filterMap Query.report)
    (hquery : s.queries[q]? = some query)
    (hsame : query'.report = query.report) :
    s.reports ~ (s.queries.set q query').filterMap Query.report := by
  obtain ⟨hset, hold⟩ := filterMap_set_perm Query.report hquery query'
  rw [hsame] at hset
  exact h.trans (hold.trans hset.symm)

theorem Reported.step (h : s.Reported dep.args.n) (hwired : s.Wired dep)
    (hstep : Step sort dep.args s s') : s'.Reported dep.args.n := by
  obtain ⟨hperm, haggregates⟩ := h
  cases hstep with
  | spawn b hb =>
      refine ⟨?_, haggregates⟩
      have hnone : (⟨b, .spawned⟩ : Query).report = none := rfl
      simpa [List.filterMap_cons, hnone] using hperm
  | select q query b b' phase fired hquery hb hselects =>
      refine ⟨reports_keep hperm hquery ?_, haggregates⟩
      rw [Query.report, Query.report,
        Query.dispatch_of_unsent hselects.unsent]
      cases phase with
      | sent d =>
          rw [Query.dispatch_of_sent rfl, Option.bind_some,
            (hselects.fresh rfl).2]
          rfl
      | _ => rfl
  | probe e x st phase hx hst hprobes => exact ⟨hperm, haggregates⟩
  | deliver e x b pool cfg seen resp receivedAt hx hsync hphase hb hpolicy =>
      exact ⟨hperm, haggregates⟩
  | accept q query d st now hquery hphase hhandler hst =>
      refine ⟨reports_keep hperm hquery ?_, haggregates⟩
      rw [Query.report, Query.report, Query.dispatch_of_sent hphase,
        Query.dispatch_of_sent rfl]
      rfl
  | serve r st st' hst hserve hclosed => exact ⟨hperm, haggregates⟩
  | succeed q i query d st handler latencyUs hquery hphase hwaiting hhandler
      hst hget hcompleted =>
      have hlt : d.replica < dep.args.n :=
        hwired.sent query (List.mem_of_getElem? hquery) d hphase
      refine ⟨reports_settle hperm hquery ?_ ?_, ?_⟩
      · rw [Query.report, Query.dispatch_of_sent hphase, Option.bind_some,
          hwaiting]
      · rw [Query.report, Query.dispatch_of_sent rfl, Option.bind_some]
      · have hbelow : (Report.success d.replica latencyUs).Below
            dep.args.n := hlt
        exact (haggregates.report hbelow).2
  | fail q query d hquery hphase hwaiting =>
      refine ⟨reports_settle hperm hquery ?_ ?_, ?_⟩
      · rw [Query.report, Query.dispatch_of_sent hphase, Option.bind_some,
          hwaiting]
      · rw [Query.report, Query.dispatch_of_sent rfl, Option.bind_some]
      · have hbelow : Report.failure.Below dep.args.n := trivial
        exact (haggregates.report hbelow).2
  | refresh i b weights weights' fetched hb hpolicy hrefresh =>
      exact ⟨hperm, haggregates⟩

theorem Reachable.reported (h : Reachable sort dep s) :
    s.Reported dep.args.n :=
  h.invariant (fun _ _ => Reported.start)
    fun _ _ hreach hs hstep => hs.step hreach.wired hstep

end Cluster

/-! ## Conservation -/

namespace Query

def failed (query : Query) : Bool := query.report.any Report.failed

def latency (query : Query) : Option Nat := query.report.bind Report.latency

def latencyOf (r : Nat) (query : Query) : Option Nat :=
  query.report.bind (Report.latencyOf r)

/-- A handler of `r` in a phase of this kind has accepted the query. -/
def handledBy (r : Nat) (st : ReplicaState) (kind : Phase → Bool)
    (query : Query) : Bool :=
  match query.accepted with
  | some (r', i) => r' = r ∧ st.handlers[i]?.any fun h => kind h.phase
  | none => false

theorem handledBy_iff {r : Nat} {st : ReplicaState} {kind : Phase → Bool}
    {query : Query} : query.handledBy r st kind = true ↔
      ∃ (i : Nat) (handler : Handler), query.accepted = some (r, i) ∧
        st.handlers[i]? = some handler ∧ kind handler.phase = true := by
  unfold handledBy
  cases haccepted : query.accepted with
  | none => simp
  | some k =>
      obtain ⟨r', i⟩ := k
      simp only [decide_eq_true_eq, Option.any_eq_true, Option.some.injEq,
        Prod.mk.injEq]
      constructor
      · rintro ⟨rfl, handler, hget, hkind⟩
        exact ⟨i, handler, ⟨rfl, rfl⟩, hget, hkind⟩
      · rintro ⟨j, handler, ⟨rfl, rfl⟩, hget, hkind⟩
        exact ⟨rfl, handler, hget, hkind⟩

theorem report_of_latencyOf {query : Query} {r latencyUs : Nat}
    (h : query.latencyOf r = some latencyUs) :
    ∃ d, query.phase = .sent d ∧ d.replica = r ∧
      d.outcome = .succeeded latencyUs := by
  obtain ⟨e, he, hlatency⟩ := Option.bind_eq_some_iff.mp h
  obtain ⟨d, hd, hreport⟩ := Option.bind_eq_some_iff.mp he
  refine ⟨d, dispatch_eq_some.mp hd, ?_⟩
  cases houtcome : d.outcome with
  | waiting =>
      rw [houtcome] at hreport
      cases hreport
  | failed =>
      rw [houtcome] at hreport
      cases hreport
      cases hlatency
  | succeeded latencyUs' =>
      rw [houtcome] at hreport
      cases hreport
      rw [Report.latencyOf_success] at hlatency
      split at hlatency
      · rename_i heq
        exact ⟨heq, congrArg _ (Option.some.inj hlatency)⟩
      · cases hlatency

end Query

namespace Cluster

variable {H : Histogram} {sort : SortByKey RingEntry} {dep : Deployment}
  {s s' : Cluster H}

theorem Served.countP_handledBy (h : s.Served) {r : Nat} {st : ReplicaState}
    (hst : s.replicas[r]? = some st) (kind : Phase → Bool) :
    s.queries.countP (Query.handledBy r st kind) =
      st.handlers.countP fun h => kind h.phase := by
  set keys := (numbers (fun h : Handler => kind h.phase) st.handlers).image
    fun i => (r, i) with hkeys
  have hcard : keys.card = st.handlers.countP fun h => kind h.phase := by
    rw [hkeys, Finset.card_image_of_injective _ (Prod.mk_right_injective r),
      card_numbers]
  rw [← hcard]
  refine h.issued.countP_eq_card ?_ ?_
  · intro k hk
    obtain ⟨i, hi, rfl⟩ := Finset.mem_image.mp hk
    obtain ⟨handler, hget, -⟩ := mem_numbers.mp hi
    exact ⟨st, hst, (List.getElem?_eq_some_iff.mp hget).1⟩
  · intro query hquery
    rw [Query.handledBy_iff]
    constructor
    · rintro ⟨i, handler, haccepted, hget, hkind⟩
      exact ⟨(r, i), Finset.mem_image.mpr
        ⟨i, mem_numbers.mpr ⟨handler, hget, hkind⟩, rfl⟩, haccepted⟩
    · rintro ⟨k, hk, haccepted⟩
      obtain ⟨i, hi, rfl⟩ := Finset.mem_image.mp hk
      obtain ⟨handler, hget, hkind⟩ := mem_numbers.mp hi
      exact ⟨i, handler, haccepted, hget, hkind⟩

theorem length_samples {slots : Nat} {st : ReplicaState}
    (h : st.Reachable slots) : st.samples.length =
      st.handlers.countP fun h => h.phase = .completed := by
  obtain ⟨-, -, hfaithful⟩ := h.accounted
  have hnumbers : (st.samples.map Prod.fst).toFinset =
      numbers (fun h : Handler => decide (h.phase = .completed))
        st.handlers := by
    ext i
    rw [List.mem_toFinset, mem_numbers]
    constructor
    · intro hi
      obtain ⟨e, he, rfl⟩ := List.mem_map.mp hi
      obtain ⟨handler, hget, hphase, -⟩ := hfaithful.tagged e he
      exact ⟨handler, hget, decide_eq_true hphase⟩
    · rintro ⟨handler, hget, hphase⟩
      exact hfaithful.exhaustive i handler hget (of_decide_eq_true hphase)
  rw [← card_numbers, ← hnumbers,
    List.toFinset_card_of_nodup hfaithful.once, List.length_map]

/-- Two replicas of one core behind one round-robin balancer. -/
def twoRoundRobin : Deployment where
  args :=
    { servers := ["http://r1:8000", "http://r2:8000"]
      rProbe := 3
      poolCapacity := 4
      probeTtlMs := 1000
      qRif := defaultQRif
      policy := "round-robin"
      balancers := 1 }
  replicas := [⟨1⟩, ⟨1⟩]
  aligned := rfl

theorem twoRoundRobin_succeeds : ∃ s s' : Cluster Histogram.exact,
    Reachable (.stable _) twoRoundRobin s ∧
      ReflTransGen (Step (.stable _) twoRoundRobin.args) s s' ∧
      s.queries = [⟨0, .sent (.to 0 none)⟩] ∧
      s'.queries = [⟨0, .sent ⟨0, none, some 0, .succeeded 2000⟩⟩] ∧
      ∃ st, s'.replicas[0]? = some st ∧
        st.handlers = [⟨1, 5000, .completed⟩] := by
  have extend : ∀ {s s' s'' : Cluster Histogram.exact},
      Reachable (.stable _) twoRoundRobin s ∧
        ReflTransGen (Step (.stable _) twoRoundRobin.args) s s' →
      Step (.stable _) twoRoundRobin.args s' s'' →
      Reachable (.stable _) twoRoundRobin s ∧
        ReflTransGen (Step (.stable _) twoRoundRobin.args) s s'' :=
    fun h hstep => ⟨h.1, h.2.tail hstep⟩
  have hstart : Reachable (H := .exact) (.stable _) twoRoundRobin _ :=
    ⟨0, _, rfl, .refl⟩
  have hspawn := hstart.step (.spawn _ 0 (by decide))
  have hpick := hspawn.step (.select _ 0 ⟨0, .spawned⟩ ⟨.roundRobin 0, []⟩
    _ _ _ rfl rfl (.pick _ 0 _ (.roundRobin 0)))
  have haccept := extend ⟨hpick, .refl⟩
    (.accept _ 0 ⟨0, _⟩ _ _ 5000 rfl rfl rfl rfl)
  have hslot := extend haccept (.serve _ 0 _ _ rfl
    (.obtainSlot _ 0 ⟨1, 5000, .queued⟩ rfl rfl (by decide +kernel)) rfl)
  have hspun := extend hslot (.serve _ 0 _ _ rfl
    (.spinEnds _ 0 ⟨1, 5000, .spinning⟩ rfl rfl) rfl)
  have hcomplete := extend hspun (.serve _ 0 _ _ rfl
    (.complete _ 0 ⟨1, 5000, .spun⟩ 9000 9000 _ rfl rfl rfl) rfl)
  obtain ⟨hreach, hrun⟩ := extend hcomplete (.succeed _ 0 0 ⟨0, _⟩ _ _
    ⟨1, 5000, .completed⟩ 2000 rfl rfl rfl rfl rfl rfl rfl)
  exact ⟨_, _, hreach, hrun, rfl, rfl, _, rfl, rfl⟩

theorem twoRoundRobin_serves : ∃ s : Cluster Histogram.exact,
    Reachable (.stable _) twoRoundRobin s ∧
      s.queries = [⟨0, .sent ⟨0, none, some 0, .succeeded 2000⟩⟩] := by
  obtain ⟨s, s', hreach, hrun, -, hqueries, -⟩ := twoRoundRobin_succeeds
  exact ⟨s', hreach.run hrun, hqueries⟩

/--
Requests and handlers correspond one to one in every reachable state: a handler
serves exactly one query, the RIF of a replica is the number of queries that
its live handlers have accepted, and a query succeeds only if its handler has
run to completion, once, leaving one sample.
-/
theorem handlers_serve_queries (h : Reachable sort dep s) :
    (∀ query ∈ s.queries, ∀ r i, query.accepted = some (r, i) →
      ∃ st, s.replicas[r]? = some st ∧ i < st.handlers.length) ∧
    ∀ (r : Nat) (st : ReplicaState), s.replicas[r]? = some st →
      (∀ i < st.handlers.length, ∃! q : Nat, ∃ query,
        s.queries[q]? = some query ∧ query.accepted = some (r, i)) ∧
      st.rif = wrapU32 (s.queries.countP
        (Query.handledBy r st Phase.live)) ∧
      st.samples.length = s.queries.countP
        (Query.handledBy r st fun phase => phase = .completed) ∧
      (∀ query ∈ s.queries, (query.latencyOf r).isSome →
        query.handledBy r st (fun phase => phase = .completed) = true) ∧
      s.queries.countP (fun query => (query.latencyOf r).isSome) ≤
        st.samples.length := by
  have hserved := h.served
  constructor
  · intro query hquery r i haccepted
    obtain ⟨q, hq⟩ := List.mem_iff_getElem?.mp hquery
    exact hserved.issued.mem hq haccepted
  · intro r st hst
    obtain ⟨a, -, hreach⟩ := h.wired.reachable r st hst
    have hcompleted : ∀ query ∈ s.queries, (query.latencyOf r).isSome →
        query.handledBy r st (fun phase => phase = .completed) = true := by
      intro query hquery hsome
      obtain ⟨latencyUs, hlatency⟩ := Option.isSome_iff_exists.mp hsome
      obtain ⟨d, hd, rfl, houtcome⟩ := Query.report_of_latencyOf hlatency
      obtain ⟨i, st', hi, hst', hmem⟩ :=
        hserved.sampled query hquery d latencyUs hd houtcome
      rw [hst, Option.some.injEq] at hst'
      subst hst'
      obtain ⟨e, he, rfl⟩ := List.mem_map.mp hmem
      obtain ⟨handler, hget, hphase, -⟩ :=
        hreach.accounted.faithful.tagged e he
      rw [Query.handledBy_iff]
      refine ⟨e.1, handler, ?_, hget, decide_eq_true hphase⟩
      rw [Query.accepted_of_sent hd, hi, Option.map_some]
    have hsamples : st.samples.length = s.queries.countP
        (Query.handledBy r st fun phase => phase = .completed) := by
      rw [length_samples hreach, hserved.countP_handledBy hst]
    refine ⟨fun i hi => hserved.issued.existsUnique_holder ⟨st, hst, hi⟩, ?_,
      hsamples, hcompleted, ?_⟩
    · rw [hserved.countP_handledBy hst Phase.live]
      exact hreach.accounted.counted
    · rw [hsamples]
      exact List.countP_mono_left hcompleted

theorem twoRoundRobin_handled : ∃ s : Cluster Histogram.exact,
    s.queries = [⟨0, .sent ⟨0, none, some 0, .succeeded 2000⟩⟩] ∧
      ∃ st, s.replicas[0]? = some st ∧ 0 < st.handlers.length := by
  obtain ⟨s, hreach, hqueries⟩ := twoRoundRobin_serves
  refine ⟨s, hqueries, (handlers_serve_queries hreach).1
    ⟨0, .sent ⟨0, none, some 0, .succeeded 2000⟩⟩ ?_ 0 0 rfl⟩
  rw [hqueries]
  exact List.mem_singleton_self _

/--
The summary conserves queries: it counts each settled query once, its errors
are the failures, the histogram of a replica has received the latencies of
exactly the queries that replica served, and the shares of the replicas and
the errors add up to the total.
-/
theorem summary_conserved (h : Reachable sort dep s) (policy : String)
    (qps : Rat) (now : Instant) :
    let summary := MetricsCollector.summary s.metrics policy qps now
    summary.queries = wrapU64 (s.queries.filterMap Query.report).length ∧
    summary.errors = wrapU64 (s.queries.countP Query.failed) ∧
    (∃ latencies, latencies ~ s.queries.filterMap Query.latency ∧
      s.metrics.histogram = H.ofValues latencies) ∧
    summary.perReplica.length = dep.args.n ∧
    (∀ r < dep.args.n, ∃ latencies,
      latencies ~ s.queries.filterMap (Query.latencyOf r) ∧
      summary.perReplica[r]? =
        some (MetricsCollector.replicaSummary (H.ofValues latencies)) ∧
      H.len (H.ofValues latencies) = min latencies.length u64Max) ∧
    (∑ r ∈ Finset.range dep.args.n,
        (s.queries.filterMap (Query.latencyOf r)).length) +
      s.queries.countP Query.failed =
        (s.queries.filterMap Query.report).length := by
  intro summary
  obtain ⟨hperm, haggregates⟩ := h.reported
  have hfailed : s.reports.countP Report.failed =
      s.queries.countP Query.failed := by
    rw [hperm.countP_eq, List.countP_filterMap]
    refine List.countP_congr fun query _ => ?_
    rw [Query.failed]
    cases query.report <;> simp
  have hlatency : ∀ f : Report → Option Nat, s.reports.filterMap f ~
      s.queries.filterMap fun query => query.report.bind f := by
    intro f
    have hmap := hperm.filterMap f
    rwa [List.filterMap_filterMap] at hmap
  have hbelow : ∀ e ∈ s.reports, e.Below dep.args.n := by
    intro e he
    obtain ⟨query, hquery, hreport⟩ :=
      List.mem_filterMap.mp (hperm.subset he)
    obtain ⟨d, hd, houtcome⟩ := Option.bind_eq_some_iff.mp hreport
    have hlt := h.wired.sent query hquery d (Query.dispatch_eq_some.mp hd)
    split at houtcome
    · cases houtcome
    · cases houtcome
      exact hlt
    · cases houtcome
      exact trivial
  refine ⟨?_, ?_, ⟨_, hlatency Report.latency, haggregates.histogram⟩, ?_, ?_,
    ?_⟩
  · rw [← hperm.length_eq]
    exact haggregates.queryCount
  · rw [← hfailed]
    exact haggregates.errorCount
  · simp [summary, MetricsCollector.summary, haggregates.perReplica]
  · intro r hr
    refine ⟨_, hlatency (Report.latencyOf r), ?_, H.len_ofValues _⟩
    simp [summary, MetricsCollector.summary, haggregates.perReplica, hr]
  · have hsum := MetricsCollector.sum_latencyOf hbelow
    have htotal := MetricsCollector.length_latency s.reports
    rw [hfailed, hperm.length_eq, ← hsum] at htotal
    rw [← htotal]
    congr 1
    refine Finset.sum_congr rfl fun r _ => ?_
    exact (hlatency (Report.latencyOf r)).length_eq.symm

theorem twoRoundRobin_summary : ∃ s : Cluster Histogram.exact,
    s.queries = [⟨0, .sent ⟨0, none, some 0, .succeeded 2000⟩⟩] ∧
      (MetricsCollector.summary s.metrics "round-robin" 100 0).queries =
        1 := by
  obtain ⟨s, hreach, hqueries⟩ := twoRoundRobin_serves
  have hsummary := (summary_conserved hreach "round-robin" 100 0).1
  rw [hqueries] at hsummary
  exact ⟨s, hqueries, hsummary⟩

/-! ## No panics -/

theorem Reachable.not_unwound (h : Reachable sort dep s)
    (hq : dep.args.config.qRif ≤ 1) :
    ∀ query ∈ s.queries, ∀ e, query.phase ≠ .unwound e := by
  refine h.invariant (I := fun s => ∀ query ∈ s.queries,
    ∀ e, query.phase ≠ .unwound e) ?_ ?_
  · intro now s₀ hs₀
    obtain ⟨balancers, -, rfl⟩ := start_ok hs₀
    simp
  · intro s s' hreach hold hstep
    cases hstep with
    | spawn b hb =>
        intro query hquery e
        rcases List.mem_append.mp hquery with hmem | hnew
        · exact hold query hmem e
        · rw [List.mem_singleton.mp hnew]
          exact nofun
    | select q query b b' phase fired hquery hb hselects =>
        have hmem := List.mem_of_getElem? hb
        exact forall_mem_set hold (hselects.not_unwound
          (hreach.wired.valid b hmem) hq)
    | accept q query d st now hquery hphase hhandler hst =>
        exact forall_mem_set hold nofun
    | succeed q i query d st handler latencyUs hquery hphase hwaiting
        hhandler hst hget hcompleted =>
        exact forall_mem_set hold nofun
    | fail q query d hquery hphase hwaiting =>
        exact forall_mem_set hold nofun
    | _ => exact hold

/--
With a quantile up to one nothing the cluster runs can panic: no selection, no
insertion, no report, no refresh of the weights, and no handler of a replica.
-/
theorem nothing_panics (h : Reachable sort dep s)
    (hq : dep.args.config.qRif ≤ 1) :
    (∀ query ∈ s.queries, (∀ e, query.phase ≠ .unwound e) ∧
      ∀ d, query.phase = .sent d → d.replica < dep.args.n ∧
        ∀ latencyUs, (MetricsCollector.exec s.metrics
          (MetricsCollector.record d.replica latencyUs)).1 = .ok ()) ∧
    (∀ b ∈ s.balancers, ∀ pool cfg, b.policy = .prequal pool cfg →
      (∀ now random, ∃ r,
        (pool.exec (Balancer.select cfg now random)).1 = .ok r) ∧
      ∀ replica resp receivedAt, (pool.exec
        (Balancer.insertResponse replica resp receivedAt)).1 = .ok ()) ∧
    (∀ b ∈ s.balancers, ∀ weights, b.policy = .wrr weights →
      0 < weights.weights.sum ∧
      ∀ fetched, ∃ weights', weights.refresh dep.args.n fetched =
        .ok weights') ∧
    ∀ st ∈ s.replicas,
      (∀ rif utilEma now, ∃ resp,
        probe sort ⟨rif, st.latencyRing, utilEma⟩ now = .ok resp) ∧
      ∀ e, ∃ ring, ReplicaState.pushSample st.latencyRing e = .ok ring := by
  have hwired := h.wired
  refine ⟨fun query hquery => ⟨h.not_unwound hq query hquery,
    fun d hd => ?_⟩, fun b hb pool cfg hpolicy => ⟨?_, ?_⟩,
    fun b hb weights hpolicy => ?_, fun st hst => ⟨?_, ?_⟩⟩
  · have hlt := hwired.sent query hquery d hd
    refine ⟨hlt, fun latencyUs => ?_⟩
    have hbelow : (Report.success d.replica latencyUs).Below dep.args.n := hlt
    exact (h.reported.aggregates.report hbelow).1
  · intro now random
    have hvalid := hwired.valid b hb
    rcases hexec : pool.exec (Balancer.select cfg now random) with
      ⟨e | r, pool'⟩
    · rw [hvalid.pool_eq hpolicy, hvalid.cfg_eq hpolicy] at hexec
      exact absurd hexec (PrequalConfig.select_ok hq)
    · exact ⟨r, rfl⟩
  · intro replica resp receivedAt
    rw [Balancer.insertResponse, ProbePool.exec_insert]
  · have hvalid := hwired.valid b hb
    rw [Balancer.Valid, hpolicy] at hvalid
    obtain ⟨hweights, -⟩ := hvalid
    have hne : weights.weights ≠ [] := by
      intro hnil
      have hlength := hweights.length
      have henough := hwired.enough
      rw [hnil, List.length_nil] at hlength
      omega
    refine ⟨List.sum_pos weights.weights hweights.pos hne, fun fetched => ?_⟩
    obtain ⟨weights', hrefresh, -⟩ := hweights.refresh fetched
    exact ⟨weights', hrefresh⟩
  · intro rif utilEma now
    exact probe_ok sort ⟨rif, st.latencyRing, utilEma⟩ now
  · intro e
    obtain ⟨r, hr⟩ := List.mem_iff_getElem?.mp hst
    obtain ⟨a, -, hreach⟩ := hwired.reachable r st hr
    obtain ⟨ring, hpush, -⟩ := hreach.accounted.faithful.valid.push
      e.2.rifAtArrival e.2.durationUs e.2.finishedAt
    exact ⟨ring, hpush⟩

theorem twoRoundRobin_safe : ∃ s : Cluster Histogram.exact,
    s.queries = [⟨0, .sent ⟨0, none, some 0, .succeeded 2000⟩⟩] ∧
      ∀ latencyUs, (MetricsCollector.exec s.metrics
        (MetricsCollector.record 0 latencyUs)).1 = .ok () := by
  obtain ⟨s, hreach, hqueries⟩ := twoRoundRobin_serves
  have hquery := (nothing_panics hreach (by decide +kernel)).1
    ⟨0, .sent ⟨0, none, some 0, .succeeded 2000⟩⟩ (by simp [hqueries])
  exact ⟨s, hqueries, (hquery.2 _ rfl).2⟩

end Cluster

end Prequal
