import Prequal.Client.Balancer
import Prequal.Metrics.Collector
import Prequal.Servers.Drain

/-!
# The client and its replicas

One client process runs a task for each query and each asynchronous probe; the
replicas run a handler for each request they accept.  Tasks and handlers take
their atomic steps in any order, and messages may be slow or lost.  Of the
transport it is assumed that a request reaches at most one handler and that a
client only sees replies that were sent.
-/

namespace Prequal

open Foundation Relation

/-! ## Tasks -/

inductive Outcome where
  | waiting
  | succeeded (latencyUs : Nat)
  | failed
  deriving DecidableEq, Repr

/--
A query on its way to a replica.  Two fields are history variables: the round
of the balancer that chose the replica, if one did, and the handler that has
accepted the query.
-/
structure Dispatch where
  replica : Nat
  event : Option Nat
  handler : Option Nat
  outcome : Outcome
  deriving DecidableEq, Repr

def Dispatch.to (replica : Nat) (event : Option Nat) : Dispatch :=
  ⟨replica, event, none, .waiting⟩

inductive QueryPhase where
  | spawned
  -- The probes are fired and the pool is not locked yet.
  | triggered
  -- Two synchronous probes are out, the exchanges `first` and `first + 1`.
  | comparing (first : Nat)
  | sent (d : Dispatch)
  -- The task panicked inside its round.
  | unwound (event : Nat)
  deriving DecidableEq, Repr

structure Query where
  balancer : Nat
  phase : QueryPhase
  deriving DecidableEq, Repr

/--
A probe from its request to its end; `seen` is a history variable, the state
of the replica in which its handler loaded the RIF.
-/
inductive ExchangePhase where
  | requested
  | loaded (seen : ReplicaState)
  | answered (seen : ReplicaState) (resp : ProbeResponse)
  | lost
  -- The reply has reached the query that waits for it.
  | fetched (seen : ReplicaState) (resp : ProbeResponse)
  -- The reply has been inserted into the pool of its balancer.
  | pooled (seen : ReplicaState) (resp : ProbeResponse)
      (receivedAt : Instant) (event : Nat)
  deriving DecidableEq, Repr

structure Exchange where
  query : Nat
  balancer : Nat
  replica : Nat
  sync : Bool
  phase : ExchangePhase
  deriving DecidableEq, Repr

namespace ExchangePhase

def pending : ExchangePhase → Bool
  | .requested | .loaded _ | .answered .. => true
  | .lost | .fetched .. | .pooled .. => false

def returned : ExchangePhase → Option (Option ProbeResponse)
  | .lost => some none
  | .fetched _ resp => some (some resp)
  | .requested | .loaded _ | .answered .. | .pooled .. => none

end ExchangePhase

/-! ## The cluster -/

/--
The whole system.  The exchanges are the probes that queries fire; those of a
weight refresher are no part of it.  `reports` is a history variable.
-/
structure Cluster (H : Histogram) where
  replicas : List ReplicaState
  balancers : List Balancer
  queries : List Query
  exchanges : List Exchange
  metrics : Inner H
  reports : List Report

structure Deployment where
  args : RunArgs
  replicas : List ServerArgs
  aligned : replicas.length = args.n

namespace Cluster

variable {H : Histogram}

def start (H : Histogram) (dep : Deployment) (now : Instant) :
    Except String (Cluster H) := do
  let balancers ← dep.args.startBalancers
  return {
    replicas := dep.replicas.map fun args => ReplicaState.new args.slots
    balancers := balancers
    queries := []
    exchanges := []
    metrics := MetricsCollector.new H dep.args.n now
    reports := [] }

/--
A step of query `q` inside `select`, with the probes it fires.  `self` is the
number of its balancer.
-/
inductive Selects (n : Nat) (exchanges : List Exchange) (q self : Nat) :
    Balancer → QueryPhase → Balancer → QueryPhase → List Exchange → Prop where
  | pick (b : Balancer) (r : Nat) (policy : Policy)
      (hpick : b.policy.Picks n r policy) :
      Selects n exchanges q self b .spawned { b with policy := policy }
        (.sent (.to r none)) []
  | trigger (b : Balancer) (pool : ProbePool) (cfg : PrequalConfig)
      (targets : List Nat) (hpolicy : b.policy = .prequal pool cfg)
      (hdistinct : targets.Nodup)
      (hcount : targets.length = cfg.probeCount n)
      (hbelow : ∀ r ∈ targets, r < n) :
      Selects n exchanges q self b .spawned b .triggered
        (targets.map fun r => ⟨q, self, r, false, .requested⟩)
  | round (b : Balancer) (pool pool' : ProbePool) (cfg : PrequalConfig)
      (now : Instant) (random r : Nat)
      (hpolicy : b.policy = .prequal pool cfg) (hrandom : random < n)
      (hexec : pool.exec (Balancer.select cfg now random) =
        (.ok r, pool')) :
      Selects n exchanges q self b .triggered
        (b.enter (.round now random) pool' cfg)
        (.sent (.to r (some b.events.length))) []
  | unwind (b : Balancer) (pool pool' : ProbePool) (cfg : PrequalConfig)
      (now : Instant) (random : Nat) (e : Panic)
      (hpolicy : b.policy = .prequal pool cfg) (hrandom : random < n)
      (hexec : pool.exec (Balancer.select cfg now random) =
        (.error e, pool')) :
      Selects n exchanges q self b .triggered
        (b.enter (.round now random) pool' cfg)
        (.unwound b.events.length) []
  | compare (b : Balancer) (x y : Nat) (hpolicy : b.policy = .po2)
      (hx : x < n) (hy : y < n - 1) :
      Selects n exchanges q self b .spawned b (.comparing exchanges.length)
        [⟨q, self, (Po2.pair x y).1, true, .requested⟩,
          ⟨q, self, (Po2.pair x y).2, true, .requested⟩]
  | decide (b : Balancer) (first : Nat) (xa xb : Exchange)
      (pa pb : Option ProbeResponse) (hpolicy : b.policy = .po2)
      (ha : exchanges[first]? = some xa)
      (hb : exchanges[first + 1]? = some xb)
      (hpa : xa.phase.returned = some pa)
      (hpb : xb.phase.returned = some pb) :
      Selects n exchanges q self b (.comparing first) b
        (.sent (.to (Po2.choose xa.replica xb.replica pa pb) none)) []

/--
A step of a probe short of its insertion.  The handler loads the RIF first and
computes the estimate from the ring of a later state.
-/
inductive Probes (sort : SortByKey RingEntry) (st : ReplicaState) :
    Exchange → ExchangePhase → Prop where
  | load (x : Exchange) (hphase : x.phase = .requested) :
      Probes sort st x (.loaded st)
  | answer (x : Exchange) (seen : ReplicaState) (utilEma : Rat)
      (now : Instant) (resp : ProbeResponse) (hphase : x.phase = .loaded seen)
      (hprobe : probe sort ⟨seen.rif, st.latencyRing, utilEma⟩ now =
        .ok resp) :
      Probes sort st x (.answered seen resp)
  | fetch (x : Exchange) (seen : ReplicaState) (resp : ProbeResponse)
      (hsync : x.sync = true) (hphase : x.phase = .answered seen resp) :
      Probes sort st x (.fetched seen resp)
  | lose (x : Exchange) (hphase : x.phase.pending = true) :
      Probes sort st x .lost

inductive Step (sort : SortByKey RingEntry) (args : RunArgs) :
    Cluster H → Cluster H → Prop where
  | spawn (s : Cluster H) (b : Nat) (hb : b < s.balancers.length) :
      Step sort args s { s with queries := s.queries ++ [⟨b, .spawned⟩] }
  | select (s : Cluster H) (q : Nat) (query : Query) (b b' : Balancer)
      (phase : QueryPhase) (fired : List Exchange)
      (hquery : s.queries[q]? = some query)
      (hb : s.balancers[query.balancer]? = some b)
      (h : Selects args.n s.exchanges q query.balancer b query.phase b' phase
        fired) :
      Step sort args s { s with
        balancers := s.balancers.set query.balancer b'
        queries := s.queries.set q { query with phase := phase }
        exchanges := s.exchanges ++ fired }
  | probe (s : Cluster H) (e : Nat) (x : Exchange) (st : ReplicaState)
      (phase : ExchangePhase) (hx : s.exchanges[e]? = some x)
      (hst : s.replicas[x.replica]? = some st) (h : Probes sort st x phase) :
      Step sort args s { s with
        exchanges := s.exchanges.set e { x with phase := phase } }
  | deliver (s : Cluster H) (e : Nat) (x : Exchange) (b : Balancer)
      (pool : ProbePool) (cfg : PrequalConfig) (seen : ReplicaState)
      (resp : ProbeResponse) (receivedAt : Instant)
      (hx : s.exchanges[e]? = some x) (hsync : x.sync = false)
      (hphase : x.phase = .answered seen resp)
      (hb : s.balancers[x.balancer]? = some b)
      (hpolicy : b.policy = .prequal pool cfg) :
      Step sort args s { s with
        balancers := s.balancers.set x.balancer
          (b.enter (.insert x.replica resp receivedAt)
            (pool.exec (Balancer.insertResponse x.replica resp
              receivedAt)).2 cfg)
        exchanges := s.exchanges.set e { x with
          phase := .pooled seen resp receivedAt b.events.length } }
  | accept (s : Cluster H) (q : Nat) (query : Query) (d : Dispatch)
      (st : ReplicaState) (now : Instant)
      (hquery : s.queries[q]? = some query) (hphase : query.phase = .sent d)
      (hhandler : d.handler = none)
      (hst : s.replicas[d.replica]? = some st) :
      Step sort args s { s with
        replicas := s.replicas.set d.replica (st.arrive now)
        queries := s.queries.set q { query with
          phase := .sent { d with handler := some st.handlers.length } } }
  | serve (s : Cluster H) (r : Nat) (st st' : ReplicaState)
      (hst : s.replicas[r]? = some st) (hstep : st.Step st')
      (hclosed : st'.handlers.length = st.handlers.length) :
      Step sort args s { s with replicas := s.replicas.set r st' }
  | succeed (s : Cluster H) (q i : Nat) (query : Query) (d : Dispatch)
      (st : ReplicaState) (handler : Handler) (latencyUs : Nat)
      (hquery : s.queries[q]? = some query) (hphase : query.phase = .sent d)
      (hwaiting : d.outcome = .waiting) (hhandler : d.handler = some i)
      (hst : s.replicas[d.replica]? = some st)
      (hget : st.handlers[i]? = some handler)
      (hcompleted : handler.phase = .completed) :
      Step sort args s { s with
        queries := s.queries.set q { query with
          phase := .sent { d with outcome := .succeeded latencyUs } }
        metrics := (MetricsCollector.exec s.metrics
          (MetricsCollector.record d.replica latencyUs)).2
        reports := s.reports ++ [.success d.replica latencyUs] }
  | fail (s : Cluster H) (q : Nat) (query : Query) (d : Dispatch)
      (hquery : s.queries[q]? = some query) (hphase : query.phase = .sent d)
      (hwaiting : d.outcome = .waiting) :
      Step sort args s { s with
        queries := s.queries.set q { query with
          phase := .sent { d with outcome := .failed } }
        metrics := (MetricsCollector.exec s.metrics
          MetricsCollector.recordError).2
        reports := s.reports ++ [.failure] }
  | refresh (s : Cluster H) (i : Nat) (b : Balancer) (weights weights' : Wrr)
      (fetched : Option ProbeResponse) (hb : s.balancers[i]? = some b)
      (hpolicy : b.policy = .wrr weights)
      (hrefresh : weights.refresh args.n fetched = .ok weights') :
      Step sort args s { s with
        balancers := s.balancers.set i { b with policy := .wrr weights' } }

def Reachable (sort : SortByKey RingEntry) (dep : Deployment)
    (s : Cluster H) : Prop :=
  ∃ now s₀, start H dep now = .ok s₀ ∧
    ReflTransGen (Step sort dep.args) s₀ s

theorem Reachable.step {sort : SortByKey RingEntry} {dep : Deployment}
    {s s' : Cluster H} (h : Reachable sort dep s)
    (hstep : Step sort dep.args s s') : Reachable sort dep s' := by
  obtain ⟨now, s₀, hs₀, hrun⟩ := h
  exact ⟨now, s₀, hs₀, hrun.tail hstep⟩

theorem Reachable.run {sort : SortByKey RingEntry} {dep : Deployment}
    {s s' : Cluster H} (h : Reachable sort dep s)
    (hrun : ReflTransGen (Step sort dep.args) s s') :
    Reachable sort dep s' := by
  obtain ⟨now, s₀, hs₀, hpast⟩ := h
  exact ⟨now, s₀, hs₀, hpast.trans hrun⟩

/--
An invariant of the start and of every step holds of every such state; what is
known of them already may be used for the step.
-/
theorem Reachable.invariant {sort : SortByKey RingEntry} {dep : Deployment}
    {I : Cluster H → Prop}
    (hstart : ∀ now s₀, start H dep now = .ok s₀ → I s₀)
    (hstep : ∀ s s', Reachable sort dep s → I s →
      Step sort dep.args s s' → I s') {s : Cluster H}
    (h : Reachable sort dep s) : I s := by
  obtain ⟨now, s₀, hs₀, hrun⟩ := h
  have hboth : Reachable sort dep s ∧ I s := invariant_of_step
    (I := fun s => Reachable sort dep s ∧ I s)
    (fun a b ha hab => ⟨ha.1.step hab, hstep a b ha.1 ha.2 hab⟩)
    ⟨⟨now, s₀, hs₀, .refl⟩, hstart now s₀ hs₀⟩ hrun
  exact hboth.2

theorem start_ok {dep : Deployment} {now : Instant} {s : Cluster H}
    (h : start H dep now = .ok s) :
    ∃ balancers, dep.args.startBalancers = .ok balancers ∧
      s = {
        replicas := dep.replicas.map fun args => ReplicaState.new args.slots
        balancers := balancers
        queries := []
        exchanges := []
        metrics := MetricsCollector.new H dep.args.n now
        reports := [] } := by
  rw [start] at h
  cases hbalancers : dep.args.startBalancers with
  | error e =>
      rw [hbalancers] at h
      cases h
  | ok balancers =>
      rw [hbalancers] at h
      exact ⟨balancers, rfl, (Except.ok.inj h).symm⟩

end Cluster

end Prequal
