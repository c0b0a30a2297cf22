import Prequal.Cluster.Choices
import Prequal.Cluster.Provenance

/-!
# Draining the cluster

Once the arrivals are over and no burst starts, every step takes some work
away, so the cluster comes to rest in any order of its steps.  Nothing is left
behind: a task that waits can always time out, a selection always finds a
replica, and a handler is waited for only as long as it has work to do.
-/

namespace Prequal

open Foundation Relation

/-! ## Work in progress -/

def ExchangePhase.weight : ExchangePhase → Nat
  | .requested => 3
  | .loaded _ => 2
  | .answered .. => 1
  | .lost | .fetched .. | .pooled .. => 0

/-- A handler that is still to come counts with its own steps. -/
def Dispatch.weight (d : Dispatch) : Nat :=
  (if d.handler = none then 4 else 0) + if d.outcome = .waiting then 1 else 0

/-- A query that has not selected yet counts with the probes it will fire. -/
def QueryPhase.weight (fanOut : Nat) : QueryPhase → Nat
  | .spawned => 3 * fanOut + 7
  | .triggered | .comparing _ => 6
  | .sent d => d.weight
  | .unwound _ => 0

theorem Dispatch.weight_to (r : Nat) (event : Option Nat) :
    (Dispatch.to r event).weight = 5 := rfl

theorem ReplicaState.remaining_arrive (st : ReplicaState) (now : Instant) :
    (st.arrive now).remaining = st.remaining + 3 := by
  have hnew : Phase.remaining .queued = 3 := rfl
  have hburst : (st.arrive now).burst = st.burst := rfl
  rw [remaining, hburst, remaining]
  simp only [arrive, List.map_append, List.sum_append, List.map_cons,
    List.map_nil, List.sum_singleton, hnew]
  omega

theorem Dispatch.weight_accept {d : Dispatch} (h : d.handler = none)
    (i : Nat) : ({ d with handler := some i } : Dispatch).weight + 4 =
      d.weight := by
  simp [weight, h]
  omega

theorem Dispatch.weight_settle {d : Dispatch} (h : d.outcome = .waiting)
    {outcome : Outcome} (hsettled : outcome ≠ .waiting) :
    ({ d with outcome := outcome } : Dispatch).weight + 1 = d.weight := by
  simp [weight, h, hsettled]

@[simp] theorem QueryPhase.weight_sent (fanOut : Nat) (d : Dispatch) :
    (QueryPhase.sent d).weight fanOut = d.weight := rfl

namespace Cluster

variable {H : Histogram} {sort : SortByKey RingEntry} {dep : Deployment}
  {s s' : Cluster H}

def weight (args : RunArgs) (s : Cluster H) : Nat :=
  (s.queries.map fun query => query.phase.weight args.fanOut).sum +
    (s.exchanges.map fun x => x.phase.weight).sum +
    (s.replicas.map ReplicaState.remaining).sum

/--
A step after the arrivals are over: no query comes and no burst starts, and it
is not a refresh of the weights, which never end.
-/
structure Closes (sort : SortByKey RingEntry) (args : RunArgs)
    (s s' : Cluster H) : Prop where
  step : Step sort args s s'
  closed : s'.queries.length = s.queries.length
  idle : ∀ (r : Nat) (st st' : ReplicaState), s.replicas[r]? = some st →
    s'.replicas[r]? = some st' → st'.burst = true → st.burst = true
  moves : s'.queries ≠ s.queries ∨ s'.exchanges ≠ s.exchanges ∨
    s'.replicas ≠ s.replicas

/-- Such a step that delivers no query to a replica. -/
structure Finishes (sort : SortByKey RingEntry) (args : RunArgs)
    (s s' : Cluster H) : Prop extends Closes sort args s s' where
  delivered : handlerKeys s'.replicas = handlerKeys s.replicas

theorem Selects.weight_lt {args : RunArgs} {q self : Nat}
    {exchanges fired : List Exchange} {b b' : Balancer}
    {phase phase' : QueryPhase}
    (h : Selects args.n exchanges q self b phase b' phase' fired)
    (hfan : b.policy.fanOut args.n = args.fanOut) :
    phase'.weight args.fanOut + (fired.map fun x => x.phase.weight).sum <
      phase.weight args.fanOut := by
  have hweight : ∀ x ∈ fired.map fun x : Exchange => x.phase.weight,
      x = 3 := by
    intro w hw
    obtain ⟨x, hx, rfl⟩ := List.mem_map.mp hw
    rw [(h.fired_wired x hx).2.2.2]
    rfl
  have hsum : (fired.map fun x => x.phase.weight).sum =
      (fired.map fun x => x.phase.weight).length * 3 :=
    List.sum_eq_card_nsmul _ _ hweight
  have hcount := h.fired_count.2.2
  rw [hsum, List.length_map, hcount, hfan]
  cases h with
  | pick => simp [QueryPhase.weight, Dispatch.weight_to]; omega
  | trigger => simp [QueryPhase.weight]; omega
  | compare => simp [QueryPhase.weight]; omega
  | round => simp [QueryPhase.weight, Dispatch.weight_to]
  | unwind => simp [QueryPhase.weight]
  | decide => simp [QueryPhase.weight, Dispatch.weight_to]

theorem Probes.weight_lt {st : ReplicaState} {x : Exchange}
    {phase : ExchangePhase} (h : Probes sort st x phase) :
    phase.weight < x.phase.weight := by
  cases h with
  | load hphase =>
      rw [hphase]
      exact Nat.lt_succ_self 2
  | answer seen utilEma now resp hphase hprobe =>
      rw [hphase]
      exact Nat.lt_succ_self 1
  | fetch seen resp hsync hphase =>
      rw [hphase]
      exact Nat.zero_lt_one
  | lose hpending =>
      cases hphase : x.phase with
      | requested => decide
      | loaded seen => exact Nat.zero_lt_two
      | answered seen resp => exact Nat.zero_lt_one
      | _ =>
        rw [hphase] at hpending
        cases hpending

theorem Closes.weight_lt {args : RunArgs} (h : Closes sort args s s')
    (hfan : ∀ b ∈ s.balancers, b.policy.fanOut args.n = args.fanOut) :
    s'.weight args < s.weight args := by
  obtain ⟨hstep, hclosed, hidle, hmoves⟩ := h
  cases hstep with
  | spawn b hb => simp at hclosed
  | select q query b b' phase fired hquery hb hselects =>
      have hlt := hselects.weight_lt (hfan b (List.mem_of_getElem? hb))
      have hset := sum_map_set_add hquery { query with phase := phase }
        fun query => query.phase.weight args.fanOut
      simp only [weight, List.map_append, List.sum_append]
      dsimp only at hset
      omega
  | probe e x st phase hx hst hprobes =>
      have hlt := hprobes.weight_lt
      have hset := sum_map_set_add hx { x with phase := phase }
        fun x => x.phase.weight
      simp only [weight]
      dsimp only at hset
      omega
  | deliver e x b pool cfg seen resp receivedAt hx hsync hphase hb hpolicy =>
      have hset := sum_map_set_add hx
        { x with phase := .pooled seen resp receivedAt b.events.length }
        fun x => x.phase.weight
      have hold : x.phase.weight = 1 := by
        rw [hphase]
        rfl
      have hnew : (ExchangePhase.pooled seen resp receivedAt
          b.events.length).weight = 0 := rfl
      simp only [hold, hnew] at hset
      simp only [weight]
      omega
  | accept q query d st now hquery hphase hhandler hst =>
      have hset := sum_map_set_add hquery { query with
          phase := .sent { d with handler := some st.handlers.length } }
        fun query => query.phase.weight args.fanOut
      have hreplica := sum_map_set_add hst (st.arrive now)
        ReplicaState.remaining
      rw [ReplicaState.remaining_arrive] at hreplica
      have hweight := Dispatch.weight_accept hhandler st.handlers.length
      simp only [hphase, QueryPhase.weight_sent] at hset
      simp only [weight]
      omega
  | serve r st st' hst hserve hkept =>
      have hlt := ReplicaState.Quiet.remaining_lt ⟨hserve, hkept, hidle r st
        st' hst (by simp [getElem?_set_of_some hst])⟩
      have hset := sum_map_set_add hst st' ReplicaState.remaining
      simp only [weight]
      omega
  | succeed q i query d st handler latencyUs hquery hphase hwaiting hhandler
      hst hget hcompleted =>
      have hset := sum_map_set_add hquery { query with
          phase := .sent { d with outcome := .succeeded latencyUs } }
        fun query => query.phase.weight args.fanOut
      have hweight := Dispatch.weight_settle hwaiting
        (show Outcome.succeeded latencyUs ≠ .waiting by simp)
      simp only [hphase, QueryPhase.weight_sent] at hset
      simp only [weight]
      omega
  | fail q query d hquery hphase hwaiting =>
      have hset := sum_map_set_add hquery { query with
          phase := .sent { d with outcome := .failed } }
        fun query => query.phase.weight args.fanOut
      have hweight := Dispatch.weight_settle hwaiting
        (show Outcome.failed ≠ .waiting by simp)
      simp only [hphase, QueryPhase.weight_sent] at hset
      simp only [weight]
      omega
  | refresh i b weights weights' fetched hb hpolicy hrefresh =>
      simp at hmoves

/-! ## At rest -/

/-- Nothing is left to do for anybody. -/
structure Settled (dep : Deployment) (s : Cluster H) : Prop where
  queries : ∀ query ∈ s.queries, query.report.isSome ∨
    ∃ e, query.phase = .unwound e
  exchanges : ∀ x ∈ s.exchanges, x.phase.pending = false
  replicas : ∀ (r : Nat) (st : ReplicaState), s.replicas[r]? = some st →
    ∃ a, dep.replicas[r]? = some a ∧ st.AtRest a.slots

theorem Step.finishes {args : RunArgs} (hstep : Step sort args s s')
    (hclosed : s'.queries.length = s.queries.length)
    (hreplicas : s'.replicas = s.replicas)
    (hmoves : s'.queries ≠ s.queries ∨ s'.exchanges ≠ s.exchanges) :
    Finishes sort args s s' := by
  refine ⟨⟨hstep, hclosed, ?_, ?_⟩, by rw [hreplicas]⟩
  · intro r st st' hst hst'
    rw [hreplicas, hst, Option.some.injEq] at hst'
    subst hst'
    exact id
  · exact hmoves.imp_right .inl

theorem finishes_select {args : RunArgs} {q : Nat} {query : Query}
    {b b' : Balancer} {phase : QueryPhase} {fired : List Exchange}
    (hquery : s.queries[q]? = some query)
    (hb : s.balancers[query.balancer]? = some b)
    (hselects : Selects args.n s.exchanges q query.balancer b query.phase b'
      phase fired) (hchanges : phase ≠ query.phase) :
    ∃ s', Finishes sort args s s' := by
  have hne : ({ query with phase := phase } : Query) ≠ query :=
    fun hsame => hchanges (congrArg Query.phase hsame)
  exact ⟨_, (Step.select s q query b b' phase fired hquery hb
    hselects).finishes List.length_set rfl (.inl (set_ne hquery hne))⟩

theorem exists_selects {args : RunArgs} (hn : 2 ≤ args.n) {b : Balancer}
    (hb : b.Valid args) (exchanges : List Exchange) (q self : Nat) :
    ∃ b' phase fired, Selects args.n exchanges q self b .spawned b' phase
      fired ∧ phase ≠ .spawned := by
  cases hpolicy : b.policy with
  | random =>
      refine ⟨_, _, _, .pick b 0 .random ?_, by simp⟩
      rw [hpolicy]
      exact .random 0 (by omega)
  | roundRobin counter =>
      refine ⟨_, _, _, .pick b (counter % args.n)
        (.roundRobin (wrapU64 (counter + 1))) ?_, by simp⟩
      rw [hpolicy]
      exact .roundRobin counter
  | po2 =>
      exact ⟨_, _, _, .compare b 0 0 hpolicy (by omega) (by omega), by simp⟩
  | wrr weights =>
      rw [Balancer.Valid, hpolicy] at hb
      have hne : weights.weights ≠ [] := by
        intro hnil
        have hlength := hb.1.length
        rw [hnil, List.length_nil] at hlength
        omega
      have hsum : 0 < weights.weights.sum :=
        List.sum_pos weights.weights hb.1.pos hne
      refine ⟨_, _, _, .pick b (Wrr.select args.n weights.weights 0)
        (.wrr weights) ?_, by simp⟩
      rw [hpolicy]
      exact .wrr weights 0 ⟨le_rfl, hsum⟩
  | prequal pool cfg =>
      refine ⟨_, _, _, .trigger b pool cfg
        (List.range (cfg.probeCount args.n)) hpolicy List.nodup_range
        List.length_range ?_, by simp⟩
      intro r hr
      exact (List.mem_range.mp hr).trans_le (Nat.min_le_right _ _)

theorem Reachable.waits (h : Reachable sort dep s) :
    ∀ query ∈ s.queries,
      (query.phase = .triggered → dep.args.policy = "prequal") ∧
      ∀ first, query.phase = .comparing first → dep.args.policy = "po2" := by
  refine h.invariant (I := fun s => ∀ query ∈ s.queries,
    (query.phase = .triggered → dep.args.policy = "prequal") ∧
    ∀ first, query.phase = .comparing first → dep.args.policy = "po2") ?_ ?_
  · intro now s₀ hs₀
    obtain ⟨balancers, -, rfl⟩ := start_ok hs₀
    simp
  · intro s s' hreach hold hstep
    cases hstep with
    | spawn b hb =>
        intro query hquery
        rcases List.mem_append.mp hquery with hmem | hnew
        · exact hold query hmem
        · rw [List.mem_singleton.mp hnew]
          exact ⟨nofun, nofun⟩
    | select q query b b' phase fired hquery hb hselects =>
        have hname := hreach.named b (List.mem_of_getElem? hb)
        refine forall_mem_set hold ?_
        generalize query.phase = old at hselects
        cases hselects with
        | trigger pool cfg targets hpolicy =>
            rw [hpolicy] at hname
            exact ⟨fun _ => hname.symm, nofun⟩
        | compare x y hpolicy =>
            rw [hpolicy] at hname
            exact ⟨nofun, fun _ _ => hname.symm⟩
        | _ => exact ⟨nofun, nofun⟩
    | accept q query d st now hquery hphase hhandler hst =>
        exact forall_mem_set hold ⟨nofun, nofun⟩
    | succeed q i query d st handler latencyUs hquery hphase hwaiting
        hhandler hst hget hcompleted =>
        exact forall_mem_set hold ⟨nofun, nofun⟩
    | fail q query d hquery hphase hwaiting =>
        exact forall_mem_set hold ⟨nofun, nofun⟩
    | _ => exact hold

section Rest

variable (h : Reachable sort dep s)
  (hrest : ∀ s', ¬ Finishes sort dep.args s s')

include h hrest

theorem not_pending_of_rest : ∀ x ∈ s.exchanges, x.phase.pending = false := by
  intro x hx
  by_contra hpending
  rw [Bool.not_eq_false] at hpending
  obtain ⟨e, he⟩ := List.mem_iff_getElem?.mp hx
  have hlt := (h.wired.exchanges x hx).1
  rw [← h.wired.replicas] at hlt
  have hst := List.getElem?_eq_getElem hlt
  have hne : ({ x with phase := .lost } : Exchange) ≠ x := by
    intro hsame
    rw [← congrArg Exchange.phase hsame] at hpending
    cases hpending
  exact hrest _ ((Step.probe s e x _ .lost he hst
    (.lose x hpending)).finishes rfl rfl (.inr (set_ne he hne)))

theorem returned_of_rest (hname : dep.args.policy = "po2") {x : Exchange}
    (hx : x ∈ s.exchanges) : ∃ p, x.phase.returned = some p := by
  have hpending := not_pending_of_rest h hrest x hx
  cases hphase : x.phase with
  | lost => exact ⟨none, rfl⟩
  | fetched seen resp => exact ⟨some resp, rfl⟩
  | pooled seen resp receivedAt k =>
      -- Without a pool there is no event for the reply.
      obtain ⟨record, ⟨b, hb, hget⟩, -⟩ :=
        h.logged.stored x hx _ _ _ _ hphase
      have hmem := List.mem_of_getElem? hb
      have hvalid := h.wired.valid b hmem
      rw [Balancer.Valid,
        Policy.eq_po2 ((h.named b hmem).trans hname)] at hvalid
      rw [hvalid] at hget
      cases hget
  | _ =>
    rw [hphase] at hpending
    cases hpending

theorem reported_of_rest : ∀ query ∈ s.queries,
    query.report.isSome ∨ ∃ e, query.phase = .unwound e := by
  intro query hmem
  obtain ⟨q, hquery⟩ := List.mem_iff_getElem?.mp hmem
  have hlt := h.wired.queries query hmem
  have hb := List.getElem?_eq_getElem hlt
  have hbmem := List.getElem_mem hlt
  have hvalid := h.wired.valid _ hbmem
  obtain ⟨htriggered, hcomparing⟩ := h.waits query hmem
  have hstuck : ∀ b' phase fired, Selects dep.args.n s.exchanges q
      query.balancer s.balancers[query.balancer] query.phase b' phase fired →
      phase = query.phase := by
    intro b' phase fired hselects
    by_contra hchanges
    obtain ⟨s', hs'⟩ : ∃ s', Finishes sort dep.args s s' :=
      finishes_select hquery hb hselects hchanges
    exact hrest s' hs'
  cases hphase : query.phase with
  | spawned =>
      obtain ⟨b', phase, fired, hselects, hchanges⟩ :=
        exists_selects h.wired.enough hvalid s.exchanges q query.balancer
      rw [hphase] at hstuck
      exact absurd (hstuck b' phase fired hselects) hchanges
  | triggered =>
      obtain ⟨pool, cfg, hpolicy⟩ := Policy.eq_prequal
        ((h.named _ hbmem).trans (htriggered hphase))
      rw [hphase] at hstuck
      have hn : 0 < dep.args.n := by
        have := h.wired.enough
        omega
      rcases hexec : pool.exec (Balancer.select cfg 0 0) with ⟨e | r, pool'⟩
      · cases hstuck _ _ _ (.unwind _ pool pool' cfg 0 0 e hpolicy hn hexec)
      · cases hstuck _ _ _ (.round _ pool pool' cfg 0 0 r hpolicy hn hexec)
  | comparing first =>
      have hname := hcomparing first hphase
      have hpolicy := Policy.eq_po2 ((h.named _ hbmem).trans hname)
      obtain ⟨xa, xb, hpaired⟩ :=
        ((h.compared hname) q query hquery).1 first hphase
      obtain ⟨pa, hpa⟩ := returned_of_rest h hrest hname
        (List.mem_of_getElem? hpaired.left)
      obtain ⟨pb, hpb⟩ := returned_of_rest h hrest hname
        (List.mem_of_getElem? hpaired.right)
      rw [hphase] at hstuck
      cases hstuck _ _ _ (.decide _ first xa xb pa pb hpolicy hpaired.left
        hpaired.right hpa hpb)
  | sent d =>
      left
      rw [Query.report, Query.dispatch_of_sent hphase, Option.bind_some]
      cases houtcome : d.outcome with
      | waiting =>
          have hne : ({ query with
              phase := .sent { d with outcome := .failed } } : Query) ≠
                query := by
            intro hsame
            have hnew := congrArg Query.phase hsame
            rw [hphase] at hnew
            injection hnew with hd
            rw [← hd] at houtcome
            cases houtcome
          exact absurd ((Step.fail s q query d hquery hphase
            houtcome).finishes List.length_set rfl
              (.inl (set_ne hquery hne))) (hrest _)
      | succeeded latencyUs => rfl
      | failed => rfl
  | unwound e => exact .inr ⟨e, rfl⟩

theorem atRest_of_rest : ∀ (r : Nat) (st : ReplicaState),
    s.replicas[r]? = some st →
      ∃ a, dep.replicas[r]? = some a ∧ st.AtRest a.slots := by
  intro r st hst
  obtain ⟨a, ha, hreach⟩ := h.wired.reachable r st hst
  refine ⟨a, ha, hreach.atRest (ReplicaState.exists_serves hreach
    a.one_le_slots fun st' hserves => ?_)⟩
  refine hrest _ ⟨⟨.serve s r st st' hst hserves.step hserves.closed, rfl,
    ?_, .inr (.inr ?_)⟩, handlerKeys_set hst hserves.closed⟩
  · intro r' st₁ st₂ hst₁ hst₂ hburst
    dsimp only at hst₂
    rw [getElem?_set_of_some hst] at hst₂
    split at hst₂
    · rename_i heq
      subst heq
      rw [hst, Option.some.injEq] at hst₁
      rw [Option.some.injEq] at hst₂
      subst hst₁ hst₂
      exact hserves.idle hburst
    · rw [hst₁, Option.some.injEq] at hst₂
      subst hst₂
      exact hburst
  · refine set_ne hst fun hsame => ?_
    have hlt := hserves.toQuiet.remaining_lt
    rw [hsame] at hlt
    exact lt_irrefl _ hlt

theorem settled_of_rest : s.Settled dep :=
  ⟨reported_of_rest h hrest, not_pending_of_rest h hrest,
    atRest_of_rest h hrest⟩

end Rest

/--
The cluster drains.  Once no query arrives and no burst starts, any run of its
tasks, probes and handlers is bounded by the work in progress; some run comes to
rest; and wherever a run stops short of delivering another query, every task is
over, no probe is out, every replica has a RIF of zero and all its slots free.
With a quantile up to one the summary then counts every query there was.
-/
theorem cluster_drains (h : Reachable sort dep s) :
    (∀ run : List (Cluster H), (s :: run).IsChain (Closes sort dep.args) →
      run.length ≤ s.weight dep.args) ∧
    (∃ s', ReflTransGen (Closes sort dep.args) s s' ∧
      ∀ t, ¬ Closes sort dep.args s' t) ∧
    ∀ s', ReflTransGen (Closes sort dep.args) s s' →
      (∀ t, ¬ Finishes sort dep.args s' t) →
      s'.Settled dep ∧
      (dep.args.config.qRif ≤ 1 → ∀ policy qps now,
        (MetricsCollector.summary s'.metrics policy qps now).queries =
          wrapU64 s.queries.length) := by
  have hinv : ∀ t t' : Cluster H, Reachable sort dep t →
      Closes sort dep.args t t' → Reachable sort dep t' :=
    fun _ _ ht hcloses => ht.step hcloses.step
  have hdec : ∀ t t' : Cluster H, Reachable sort dep t →
      Closes sort dep.args t t' → t'.weight dep.args < t.weight dep.args :=
    fun _ _ ht hcloses => hcloses.weight_lt ht.fannedOut.policies
  refine ⟨fun run hrun => chain_length_le hinv hdec h hrun,
    exists_at_rest hinv hdec h, ?_⟩
  intro s' hrun hrest
  have hreach := invariant_of_step hinv h hrun
  have hsettled := settled_of_rest hreach hrest
  refine ⟨hsettled, fun hq policy qps now => ?_⟩
  have hlength : s'.queries.length = s.queries.length :=
    invariant_of_step (I := fun t : Cluster H =>
      t.queries.length = s.queries.length)
      (fun _ _ ht (hcloses : Closes sort dep.args _ _) =>
        hcloses.closed.trans ht) rfl hrun
  have hall : (s'.queries.filterMap Query.report).length =
      s'.queries.length := by
    rw [List.length_filterMap_eq_countP, List.countP_eq_length]
    intro query hquery
    rcases hsettled.queries query hquery with hsome | ⟨e, he⟩
    · exact hsome
    · exact absurd he (hreach.not_unwound hq query hquery e)
  have hreported := hreach.reported
  rw [← hlength, ← hall, ← hreported.perm.length_eq]
  exact hreported.aggregates.queryCount

theorem twoRoundRobin_drains : ∃ s s' : Cluster Histogram.exact,
    s.queries = [⟨0, .spawned⟩] ∧ s'.Settled twoRoundRobin ∧
      (MetricsCollector.summary s'.metrics "round-robin" 100 0).queries =
        1 := by
  have hstart : Reachable (H := .exact) (.stable _) twoRoundRobin _ :=
    ⟨0, _, rfl, .refl⟩
  obtain ⟨s, hreach, hqueries⟩ : ∃ s : Cluster Histogram.exact,
      Reachable (.stable _) twoRoundRobin s ∧
        s.queries = [⟨0, .spawned⟩] :=
    ⟨_, hstart.step (.spawn _ 0 (by decide)), rfl⟩
  obtain ⟨-, ⟨s', hrun, hrest⟩, hsettles⟩ := cluster_drains hreach
  obtain ⟨hsettled, hcounts⟩ := hsettles s' hrun fun t ht =>
    hrest t ht.toCloses
  refine ⟨s, s', hqueries, hsettled, ?_⟩
  rw [hcounts (by decide +kernel), hqueries]
  rfl

end Cluster

end Prequal
