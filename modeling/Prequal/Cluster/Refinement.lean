import Prequal.Cluster.Requests
import Prequal.Foundation.Service

/-!
# The cluster as a service

Seen from outside the cluster answers requests.  Probes, pools, slots and
counters are its own affair: every run of the cluster is a run of the service
in which they do not occur, and the RIF of a replica is the number of requests
the service has there.
-/

namespace Prequal

open Foundation Relation

/-! ## The view from outside -/

def Phase.stage (r : Nat) : Phase → Service.Stage Nat
  | .queued | .spinning | .spun => .serving r
  | .completed => .served r
  | .orphaned | .cancelled => .dropped r

def Outcome.verdict : Outcome → Service.Verdict Nat
  | .waiting => .pending
  | .succeeded latencyUs => .succeeded latencyUs
  | .failed => .failed

def handlerAt (replicas : List ReplicaState) (r i : Nat) : Option Handler :=
  replicas[r]?.bind fun st => st.handlers[i]?

/-- A dispatch without a handler is still on its way. -/
def Dispatch.stage (replicas : List ReplicaState) (d : Dispatch) :
    Service.Stage Nat :=
  match d.handler.bind (handlerAt replicas d.replica) with
  | some handler => handler.phase.stage d.replica
  | none => .assigned d.replica

def Query.request (replicas : List ReplicaState) (query : Query) :
    Service.Request Nat Nat :=
  match query.phase with
  | .spawned | .triggered | .comparing _ => ⟨.submitted, .pending⟩
  | .sent d => ⟨d.stage replicas, d.outcome.verdict⟩
  | .unwound _ => ⟨.abandoned, .pending⟩

def Cluster.service {H : Histogram} (s : Cluster H) :
    List (Service.Request Nat Nat) :=
  s.queries.map (Query.request s.replicas)

section Views

variable {replicas replicas' : List ReplicaState} {d : Dispatch}
  {query : Query}

theorem Phase.stage_server (r : Nat) (phase : Phase) :
    (phase.stage r).server = some r := by
  cases phase <;> rfl

theorem Dispatch.stage_server (replicas : List ReplicaState) (d : Dispatch) :
    (d.stage replicas).server = some d.replica := by
  unfold stage
  split
  · exact Phase.stage_server _ _
  · rfl

theorem Dispatch.stage_of_handler {i : Nat} (handler : Handler)
    (hhandler : d.handler = some i)
    (hget : handlerAt replicas d.replica i = some handler) :
    d.stage replicas = handler.phase.stage d.replica := by
  rw [stage, hhandler, Option.bind_some, hget]

theorem Query.request_of_sent (h : query.phase = .sent d)
    (replicas : List ReplicaState) :
    query.request replicas = ⟨d.stage replicas, d.outcome.verdict⟩ := by
  rw [request, h]

theorem Query.request_server (query : Query) (replicas : List ReplicaState) :
    (query.request replicas).stage.server = query.destination := by
  cases hphase : query.phase with
  | sent d =>
      rw [request_of_sent hphase, destination_of_sent hphase]
      exact Dispatch.stage_server replicas d
  | _ => rw [request, hphase, destination, dispatch, hphase]; rfl

theorem Query.report_request (query : Query) (replicas : List ReplicaState) :
    query.report =
      match (query.request replicas).verdict with
      | .pending => none
      | .succeeded latencyUs =>
          query.destination.map fun r => .success r latencyUs
      | .failed => some .failure := by
  cases hphase : query.phase with
  | sent d =>
      rw [request_of_sent hphase, destination_of_sent hphase, report,
        dispatch_of_sent hphase, Option.bind_some]
      cases d.outcome <;> rfl
  | _ => rw [request, hphase, report, dispatch, hphase]; rfl

theorem Query.request_congr
    (h : ∀ r i, query.accepted = some (r, i) →
      handlerAt replicas' r i = handlerAt replicas r i) :
    query.request replicas' = query.request replicas := by
  cases hphase : query.phase with
  | sent d =>
      rw [request_of_sent hphase, request_of_sent hphase, Dispatch.stage,
        Dispatch.stage]
      cases hhandler : d.handler with
      | none => rfl
      | some i =>
          rw [accepted_of_sent hphase, hhandler] at h
          rw [Option.bind_some, Option.bind_some, h d.replica i rfl]
  | _ => rw [request, request, hphase]

theorem handlerAt_set {r : Nat} {st st' : ReplicaState}
    (hst : replicas[r]? = some st) (r' i : Nat) :
    handlerAt (replicas.set r st') r' i =
      if r = r' then st'.handlers[i]? else handlerAt replicas r' i := by
  rw [handlerAt, getElem?_set_of_some hst]
  split
  · rfl
  · rfl

end Views

theorem ReplicaState.Step.handlers_cases {st st' : ReplicaState}
    (h : Step st st') (hclosed : st'.handlers.length = st.handlers.length)
    (valid : Nat → Prop) (r : Nat) :
    st'.handlers = st.handlers ∨
      ∃ (i : Nat) (handler : Handler) (phase : Phase),
        st.handlers[i]? = some handler ∧
        st'.handlers = st.handlers.set i { handler with phase := phase } ∧
        (phase.stage r = handler.phase.stage r ∨
          ∀ v : Service.Verdict Nat, Service.Next valid
            ⟨handler.phase.stage r, v⟩ ⟨phase.stage r, v⟩) := by
  cases h with
  | arrive now => simp [ReplicaState.arrive] at hclosed
  | obtainSlot i handler hget hphase hfree =>
      exact .inr ⟨i, handler, .spinning, hget, rfl, .inl (by rw [hphase]; rfl)⟩
  | spinEnds i handler hget hphase =>
      exact .inr ⟨i, handler, .spun, hget, rfl, .inl (by rw [hphase]; rfl)⟩
  | orphanEnds i handler hget hphase =>
      exact .inr ⟨i, handler, .cancelled, hget, rfl,
        .inl (by rw [hphase]; rfl)⟩
  | complete i handler now finishedAt ring hget hphase hpush =>
      refine .inr ⟨i, handler, .completed, hget, rfl, .inr fun v => ?_⟩
      rw [hphase]
      exact .serve r v
  | cancelQueued i handler hget hphase =>
      refine .inr ⟨i, handler, .cancelled, hget, rfl, .inr fun v => ?_⟩
      rw [hphase]
      exact .drop r v
  | cancelSpinning i handler hget hphase =>
      refine .inr ⟨i, handler, .orphaned, hget, rfl, .inr fun v => ?_⟩
      rw [hphase]
      exact .drop r v
  | cancelSpun i handler hget hphase =>
      refine .inr ⟨i, handler, .cancelled, hget, rfl, .inr fun v => ?_⟩
      rw [hphase]
      exact .drop r v
  | burstTakes hidle hfree => exact .inl rfl
  | burstReleases hburst => exact .inl rfl

namespace Cluster

variable {H : Histogram} {sort : SortByKey RingEntry} {dep : Deployment}
  {s s' : Cluster H}

theorem service_set {q : Nat} {query query' : Query}
    (hquery : s.queries[q]? = some query)
    (hqueries : s'.queries = s.queries.set q query')
    (hothers : ∀ (j : Nat) (other : Query), s.queries[j]? = some other →
      j ≠ q → other.request s'.replicas = other.request s.replicas) :
    s'.service = s.service.set q (query'.request s'.replicas) := by
  have hget : s.service[q]? = some (query.request s.replicas) := by
    rw [service, List.getElem?_map, hquery]
    rfl
  refine List.ext_getElem? fun j => ?_
  rw [getElem?_set_of_some hget, service, List.getElem?_map, hqueries,
    getElem?_set_of_some hquery]
  split
  · rfl
  · rename_i hne
    rw [service, List.getElem?_map]
    cases hother : s.queries[j]? with
    | none => rfl
    | some other =>
        rw [Option.map_some, Option.map_some,
          hothers j other hother fun heq => hne heq.symm]

theorem Selects.next {n q self : Nat} {exchanges fired : List Exchange}
    {b b' : Balancer} {query : Query} {phase : QueryPhase}
    (h : Selects n exchanges q self b query.phase b' phase fired)
    (hlt : ∀ d, phase = .sent d → d.replica < n)
    (replicas : List ReplicaState) :
    ({ query with phase := phase } : Query).request replicas =
        query.request replicas ∨
      Service.Next (· < n) (query.request replicas)
        (({ query with phase := phase } : Query).request replicas) := by
  have hbefore : query.request replicas = ⟨.submitted, .pending⟩ := by
    generalize hphase : query.phase = old at h
    rw [Query.request, hphase]
    cases h <;> rfl
  rw [hbefore]
  cases hphase : phase with
  | spawned => exact .inl rfl
  | triggered => exact .inl rfl
  | comparing first => exact .inl rfl
  | unwound e => exact .inr .abandon
  | sent d =>
      obtain ⟨hhandler, houtcome⟩ := h.fresh hphase
      have hafter : ({ query with phase := .sent d } : Query).request
          replicas = ⟨.assigned d.replica, .pending⟩ := by
        rw [Query.request_of_sent rfl, Dispatch.stage, hhandler, houtcome]
        rfl
      rw [hafter]
      exact .inr (.assign d.replica (hlt d hphase))

theorem refines_of_set {valid : Nat → Prop} {q : Nat} {query query' : Query}
    (hquery : s.queries[q]? = some query)
    (hqueries : s'.queries = s.queries.set q query')
    (hothers : ∀ (j : Nat) (other : Query), s.queries[j]? = some other →
      j ≠ q → other.request s'.replicas = other.request s.replicas)
    (hnext : query'.request s'.replicas = query.request s.replicas ∨
      Service.Next valid (query.request s.replicas)
        (query'.request s'.replicas)) :
    s'.service = s.service ∨ Service.Step valid s.service s'.service := by
  rw [service_set hquery hqueries hothers]
  refine Service.step_of_set ?_ hnext
  rw [service, List.getElem?_map, hquery]
  rfl

theorem Step.refines (h : Reachable sort dep s)
    (hstep : Step sort dep.args s s') : s'.service = s.service ∨
      Service.Step (· < dep.args.n) s.service s'.service := by
  have hwired := h.wired
  have hissued := h.served.issued
  cases hstep with
  | spawn b hb =>
      right
      have hservice : ({ s with queries := s.queries ++ [⟨b, .spawned⟩] } :
          Cluster H).service = s.service ++ [⟨.submitted, .pending⟩] := by
        rw [service, List.map_append]
        rfl
      rw [hservice]
      exact .submit s.service
  | select q query b b' phase fired hquery hb hselects =>
      have hmem := List.mem_of_getElem? hb
      refine refines_of_set hquery rfl (fun _ _ _ _ => rfl)
        (hselects.next (fun d hd => ?_) s.replicas)
      exact hselects.lt hwired.enough (hwired.valid b hmem)
        (hwired.below b hmem) (fun x hx => (hwired.exchanges x hx).1) hd
  | probe e x st phase hx hst hprobes => exact .inl rfl
  | deliver e x b pool cfg seen resp receivedAt hx hsync hphase hb hpolicy =>
      exact .inl rfl
  | refresh i b weights weights' fetched hb hpolicy hrefresh => exact .inl rfl
  | accept q query d st now hquery hphase hhandler hst =>
      refine refines_of_set hquery rfl (fun j other hother hne => ?_)
        (.inr ?_)
      · -- The handlers of the other queries are older than the new one.
        refine Query.request_congr fun r i haccepted => ?_
        obtain ⟨st', hst', hlt⟩ := hissued.mem hother haccepted
        dsimp only at hst' hlt ⊢
        rw [handlerAt_set hst]
        split
        · rename_i heq
          subst heq
          rw [hst, Option.some.injEq] at hst'
          subst hst'
          rw [handlerAt, hst, Option.bind_some]
          exact List.getElem?_append_left hlt
        · rfl
      · have hnew : handlerAt (s.replicas.set d.replica (st.arrive now))
            d.replica st.handlers.length =
              some ⟨(RifGuard.arm st.rif).2, now, .queued⟩ := by
          rw [handlerAt_set hst, if_pos rfl]
          simp [ReplicaState.arrive]
        have hafter : ({ d with handler := some st.handlers.length } :
            Dispatch).stage (s.replicas.set d.replica (st.arrive now)) =
              .serving d.replica := by
          rw [Dispatch.stage_of_handler
            (d := { d with handler := some st.handlers.length }) _ rfl hnew]
          rfl
        rw [Query.request_of_sent hphase, Query.request_of_sent rfl, hafter,
          Dispatch.stage, hhandler]
        exact .accept d.replica d.outcome.verdict
  | serve r st st' hst hserve hclosed =>
      rcases hserve.handlers_cases hclosed (· < dep.args.n) r with
        hsame | ⟨i, handler, phase, hget, hset, hstage⟩
      · left
        refine List.map_congr_left fun query _ => ?_
        refine Query.request_congr fun r' i _ => ?_
        rw [handlerAt_set hst]
        split
        · rename_i heq
          subst heq
          rw [hsame, handlerAt, hst]
          rfl
        · rfl
      · -- The handler belongs to one query.
        have hkey : (r, i) ∈ handlerKeys s.replicas :=
          ⟨st, hst, (List.getElem?_eq_some_iff.mp hget).1⟩
        obtain ⟨q, query, hquery, haccepted⟩ := hissued.exists_holder hkey
        obtain ⟨d, hd, hhandler⟩ := Option.bind_eq_some_iff.mp haccepted
        have hphase := Query.dispatch_eq_some.mp hd
        obtain ⟨i', hi', heq⟩ := Option.map_eq_some_iff.mp hhandler
        obtain ⟨rfl, rfl⟩ := Prod.mk.inj heq
        refine refines_of_set hquery (set_self hquery).symm
          (fun j other hother hne => ?_) ?_
        · refine Query.request_congr fun r' i haccepted' => ?_
          rw [handlerAt_set hst]
          split
          · rename_i heq
            subst heq
            have hne' : i' ≠ i := by
              rintro rfl
              exact hne (hissued.unique hother hquery haccepted' haccepted)
            rw [hset, getElem?_set_of_some hget, if_neg hne', handlerAt, hst]
            rfl
          · rfl
        · have hbefore : d.stage s.replicas =
              handler.phase.stage d.replica := by
            refine Dispatch.stage_of_handler handler hi' ?_
            rw [handlerAt, hst, Option.bind_some, hget]
          have hafter : d.stage (s.replicas.set d.replica st') =
              phase.stage d.replica := by
            refine Dispatch.stage_of_handler { handler with phase := phase }
              hi' ?_
            rw [handlerAt_set hst, if_pos rfl, hset,
              getElem?_set_of_some hget, if_pos rfl]
          dsimp only
          rw [Query.request_of_sent hphase, Query.request_of_sent hphase,
            hbefore, hafter]
          rcases hstage with hstage | hnext
          · exact .inl (by rw [hstage])
          · exact .inr (hnext d.outcome.verdict)
  | succeed q i query d st handler latencyUs hquery hphase hwaiting hhandler
      hst hget hcompleted =>
      refine refines_of_set hquery rfl (fun _ _ _ _ => rfl) (.inr ?_)
      have hstage : d.stage s.replicas = .served d.replica := by
        rw [Dispatch.stage_of_handler handler hhandler, hcompleted]
        · rfl
        · rw [handlerAt, hst, Option.bind_some, hget]
      have hstage' : ({ d with outcome := .succeeded latencyUs } :
          Dispatch).stage s.replicas = .served d.replica := hstage
      rw [Query.request_of_sent hphase, Query.request_of_sent rfl, hstage',
        hstage, hwaiting]
      exact .succeed d.replica latencyUs
  | fail q query d hquery hphase hwaiting =>
      refine refines_of_set hquery rfl (fun _ _ _ _ => rfl) (.inr ?_)
      have hstage : ({ d with outcome := .failed } : Dispatch).stage
          s.replicas = d.stage s.replicas := rfl
      rw [Query.request_of_sent hphase, Query.request_of_sent rfl, hstage,
        hwaiting]
      exact .fail (d.stage s.replicas)
        (by rw [Dispatch.stage_server]; rfl)

theorem countP_serving (h : Reachable sort dep s) {r : Nat}
    {st : ReplicaState} (hst : s.replicas[r]? = some st) :
    s.service.countP (fun x => x.stage = .serving r) = st.live := by
  rw [ReplicaState.live, ← h.served.countP_handledBy hst Phase.live, service,
    List.countP_map]
  refine List.countP_congr fun query _ => ?_
  rw [Query.handledBy_iff]
  simp only [Function.comp_apply, decide_eq_true_eq]
  constructor
  · intro hserving
    cases hphase : query.phase with
    | sent d =>
        rw [Query.request_of_sent hphase] at hserving
        dsimp only at hserving
        have hreplica := Dispatch.stage_server s.replicas d
        rw [hserving] at hreplica
        obtain rfl : r = d.replica := Option.some.inj hreplica
        rw [Dispatch.stage] at hserving
        split at hserving
        · rename_i handler hhandler
          obtain ⟨i, hi, hget⟩ := Option.bind_eq_some_iff.mp hhandler
          rw [handlerAt, hst, Option.bind_some] at hget
          refine ⟨i, handler, ?_, hget, ?_⟩
          · rw [Query.accepted_of_sent hphase, hi, Option.map_some]
          · cases hkind : handler.phase <;> rw [hkind] at hserving <;>
              first | rfl | cases hserving
        · cases hserving
    | _ =>
      rw [Query.request, hphase] at hserving
      cases hserving
  · rintro ⟨i, handler, haccepted, hget, hlive⟩
    obtain ⟨d, hd, hhandler⟩ := Option.bind_eq_some_iff.mp haccepted
    obtain ⟨i', hi', heq⟩ := Option.map_eq_some_iff.mp hhandler
    obtain ⟨rfl, rfl⟩ := Prod.mk.inj heq
    rw [Query.request_of_sent (Query.dispatch_eq_some.mp hd)]
    dsimp only
    rw [Dispatch.stage_of_handler handler hi']
    · cases hkind : handler.phase <;> rw [hkind] at hlive <;>
        first | rfl | cases hlive
    · rw [handlerAt, hst, Option.bind_some, hget]

theorem refines_run (h : Reachable sort dep s)
    (hrun : ReflTransGen (Step sort dep.args) s s') :
    ReflTransGen (Service.Step (· < dep.args.n)) s.service s'.service :=
  refines_of_steps (I := fun s : Cluster H => Reachable sort dep s)
    (fun _ _ ht hstep => ht.step hstep)
    (fun _ _ ht hstep => Step.refines ht hstep) h hrun

theorem Reachable.service (h : Reachable sort dep s) :
    ReflTransGen (Service.Step (· < dep.args.n)) [] s.service := by
  obtain ⟨now, s₀, hs₀, hrun⟩ := h
  have hstart : Reachable sort dep s₀ := ⟨now, s₀, hs₀, .refl⟩
  obtain ⟨balancers, -, rfl⟩ := start_ok hs₀
  exact refines_run hstart hrun

/--
The cluster refines the service: whatever the tasks, probes and handlers do and
in whatever order, the requests go through a run of the service, each with one
server and one verdict, and the RIF of every replica is the number of requests
that the service is serving there.
-/
theorem cluster_refines_service (h : Reachable sort dep s)
    (hrun : ReflTransGen (Step sort dep.args) s s') :
    ReflTransGen (Service.Step (· < dep.args.n)) [] s.service ∧
      ReflTransGen (Service.Step (· < dep.args.n)) s.service s'.service ∧
      (∀ x ∈ s'.service, x.Sound (· < dep.args.n)) ∧
      ∀ (r : Nat) (st : ReplicaState), s'.replicas[r]? = some st →
        st.rif = wrapU32
          (s'.service.countP fun x => x.stage = .serving r) := by
  have hreach : Reachable sort dep s' := h.run hrun
  refine ⟨h.service, refines_run h hrun, Service.sound hreach.service, ?_⟩
  intro r st hst
  obtain ⟨a, -, hserver⟩ := hreach.wired.reachable r st hst
  rw [countP_serving hreach hst]
  exact hserver.accounted.counted

theorem twoRoundRobin_refines : ∃ s s' : Cluster Histogram.exact,
    s.service = [⟨.assigned 0, .pending⟩] ∧
      s'.service = [⟨.served 0, .succeeded 2000⟩] ∧
      ReflTransGen (Service.Step (· < 2)) s.service s'.service := by
  obtain ⟨s, s', hreach, hrun, hqueries, hqueries', st, hst, hhandlers⟩ :=
    twoRoundRobin_succeeds
  have hbefore : s.service = [⟨.assigned 0, .pending⟩] := by
    rw [service, hqueries]
    rfl
  have hstage : (⟨0, none, some 0, .succeeded 2000⟩ : Dispatch).stage
      s'.replicas = .served 0 := by
    refine Dispatch.stage_of_handler ⟨1, 5000, .completed⟩ rfl ?_
    rw [handlerAt, hst, Option.bind_some, hhandlers]
    rfl
  have hafter : s'.service = [⟨.served 0, .succeeded 2000⟩] := by
    rw [service, hqueries', List.map_singleton, Query.request_of_sent rfl,
      hstage]
    rfl
  exact ⟨s, s', hbefore, hafter, (cluster_refines_service hreach hrun).2.1⟩

/--
Assignments and verdicts are final over every run: a query keeps its place and
its replica, is reported at most once and never differently, and a success is
reported only where a handler of that replica has served the query.
-/
theorem verdicts_final (h : Reachable sort dep s)
    (hrun : ReflTransGen (Step sort dep.args) s s') {q : Nat} {query : Query}
    (hquery : s.queries[q]? = some query) :
    ∃ query', s'.queries[q]? = some query' ∧
      (∀ r, query.destination = some r → query'.destination = some r) ∧
      (∀ e, query.report = some e → query'.report = some e) ∧
      ∀ r latencyUs, query'.report = some (.success r latencyUs) →
        (query'.request s'.replicas).stage = .served r ∧ r < dep.args.n := by
  have hget : s.service[q]? = some (query.request s.replicas) := by
    rw [service, List.getElem?_map, hquery]
    rfl
  obtain ⟨x, hx, hcourse⟩ := Service.follows (refines_run h hrun) hget
  have hx' := hx
  rw [service, List.getElem?_map, Option.map_eq_some_iff] at hx'
  obtain ⟨query', hquery', rfl⟩ := hx'
  obtain ⟨hserver, hverdict, -⟩ := Service.final hcourse
  rw [Query.request_server, Query.request_server] at hserver
  refine ⟨query', hquery', hserver, fun e he => ?_, fun r latencyUs hr => ?_⟩
  · have hkept := hverdict fun hpending => by
      rw [Query.report_request query s.replicas, hpending] at he
      cases he
    rw [Query.report_request query s.replicas] at he
    rw [Query.report_request query' s'.replicas, hkept]
    cases hv : (query.request s.replicas).verdict with
    | pending =>
        rw [hv] at he
        cases he
    | failed =>
        rw [hv] at he
        exact he
    | succeeded latencyUs =>
        rw [hv] at he
        obtain ⟨r, hr, rfl⟩ := Option.map_eq_some_iff.mp he
        dsimp only
        rw [hserver r hr]
        rfl
  · have hreach : Reachable sort dep s' := h.run hrun
    obtain ⟨hvalid, -, hserved⟩ :=
      Service.sound hreach.service _ (List.mem_of_getElem? hx)
    rw [Query.report_request query' s'.replicas] at hr
    cases hv : (query'.request s'.replicas).verdict with
    | pending =>
        rw [hv] at hr
        cases hr
    | failed =>
        rw [hv] at hr
        cases hr
    | succeeded latencyUs' =>
        rw [hv] at hr
        obtain ⟨r', hr', heq⟩ := Option.map_eq_some_iff.mp hr
        cases heq
        obtain ⟨r', hstage⟩ := hserved latencyUs hv
        have hself := Query.request_server query' s'.replicas
        rw [hstage, hr'] at hself
        cases hself
        exact ⟨hstage, hvalid r (by rw [hstage]; rfl)⟩

theorem twoRoundRobin_final : ∃ s s' : Cluster Histogram.exact,
    s.queries = [⟨0, .sent (.to 0 none)⟩] ∧
      s'.queries = [⟨0, .sent ⟨0, none, some 0, .succeeded 2000⟩⟩] ∧
      ∃ query', s'.queries[0]? = some query' ∧
        query'.destination = some 0 ∧
        (query'.request s'.replicas).stage = .served 0 := by
  obtain ⟨s, s', hreach, hrun, hqueries, hqueries', -⟩ :=
    twoRoundRobin_succeeds
  have hquery : s.queries[0]? = some ⟨0, .sent (.to 0 none)⟩ := by
    rw [hqueries]
    rfl
  obtain ⟨query', hquery', hkept, -, hserved⟩ :=
    verdicts_final hreach hrun hquery
  refine ⟨s, s', hqueries, hqueries', query', hquery', hkept 0 rfl,
    (hserved 0 2000 ?_).1⟩
  rw [hqueries'] at hquery'
  rw [← Option.some.inj hquery']
  rfl

end Cluster

end Prequal
