import Mathlib.Algebra.Order.BigOperators.Group.Finset
import Prequal.Cluster.Probing

/-!
# Choices without a pool

Round-robin balancers share the queries out evenly, each by itself and all of
them together.  Power of two choices takes the better of two true readings.
-/

namespace Prequal

open Foundation Relation

theorem ExchangePhase.not_pending {phase : ExchangePhase}
    {p : Option ProbeResponse} (h : phase.returned = some p) :
    phase.pending = false := by
  cases phase <;> first | rfl | cases h

/-! ## Names -/

def Policy.name : Policy → String
  | .random => "random"
  | .roundRobin _ => "round-robin"
  | .po2 => "po2"
  | .wrr _ => "wrr"
  | .prequal _ _ => "prequal"

namespace Policy

variable {policy policy' : Policy}

theorem eq_roundRobin (h : policy.name = "round-robin") :
    ∃ counter, policy = .roundRobin counter := by
  cases policy with
  | roundRobin counter => exact ⟨counter, rfl⟩
  | _ => simp [name] at h

theorem eq_po2 (h : policy.name = "po2") : policy = .po2 := by
  cases policy with
  | po2 => rfl
  | _ => simp [name] at h

theorem eq_prequal (h : policy.name = "prequal") :
    ∃ pool cfg, policy = .prequal pool cfg := by
  cases policy with
  | prequal pool cfg => exact ⟨pool, cfg, rfl⟩
  | _ => simp [name] at h

theorem Picks.name {n r : Nat} (h : Picks n policy r policy') :
    policy'.name = policy.name := by
  cases h <;> rfl

end Policy

theorem Balancer.new_name {policyName : String} {n : Nat}
    {cfg : PrequalConfig} {b : Balancer}
    (h : new policyName n cfg = .ok b) : b.policy.name = policyName := by
  unfold new at h
  split at h <;> cases h <;> rfl

def Query.sentBy (i : Nat) (query : Query) : Bool :=
  query.balancer = i && query.destination.isSome

def Query.sentTo (i r : Nat) (query : Query) : Bool :=
  query.balancer = i && query.destination = some r

namespace Cluster

variable {H : Histogram} {sort : SortByKey RingEntry} {dep : Deployment}
  {s s' : Cluster H}

theorem Selects.name {n q self : Nat} {exchanges fired : List Exchange}
    {b b' : Balancer} {phase phase' : QueryPhase}
    (h : Selects n exchanges q self b phase b' phase' fired) :
    b'.policy.name = b.policy.name := by
  cases h with
  | pick r policy hpick => exact hpick.name
  | round pool pool' cfg now random r hpolicy hrandom hexec =>
      rw [hpolicy]
      rfl
  | unwind pool pool' cfg now random e hpolicy hrandom hexec =>
      rw [hpolicy]
      rfl
  | _ => rfl

theorem Reachable.named (h : Reachable sort dep s) :
    ∀ b ∈ s.balancers, b.policy.name = dep.args.policy := by
  refine h.invariant (I := fun s => ∀ b ∈ s.balancers,
    b.policy.name = dep.args.policy) ?_ ?_
  · intro now s₀ hs₀ b hb
    obtain ⟨balancers, hbalancers, rfl⟩ := start_ok hs₀
    obtain ⟨-, b', hnew, rfl⟩ := RunArgs.startBalancers_ok hbalancers
    rw [List.eq_of_mem_replicate hb]
    exact Balancer.new_name hnew
  · intro s s' _ hold hstep
    cases hstep with
    | select q query b b' phase fired hquery hb hselects =>
        exact forall_mem_set hold
          (hselects.name.trans (hold b (List.mem_of_getElem? hb)))
    | deliver e x b pool cfg seen resp receivedAt hx hsync hphase hb hpolicy =>
        refine forall_mem_set hold ?_
        rw [← hold b (List.mem_of_getElem? hb), hpolicy]
        rfl
    | refresh i b weights weights' fetched hb hpolicy hrefresh =>
        refine forall_mem_set hold ?_
        rw [← hold b (List.mem_of_getElem? hb), hpolicy]
        rfl
    | _ => exact hold

/-! ## Round robin -/

theorem Selects.rotates {n q self : Nat} {exchanges fired : List Exchange}
    {b b' : Balancer} {phase phase' : QueryPhase} {counter : Nat}
    (h : Selects n exchanges q self b phase b' phase' fired)
    (hpolicy : b'.policy = .roundRobin counter) :
    ∃ k d, b.policy = .roundRobin k ∧ counter = wrapU64 (k + 1) ∧
      phase' = .sent d ∧ d.replica = k % n := by
  cases h with
  | pick r policy hpick =>
      rcases b with ⟨old, events⟩
      dsimp only at hpick hpolicy
      cases hpick with
      | roundRobin k =>
          cases hpolicy
          exact ⟨k, _, rfl, rfl, rfl, rfl⟩
      | random _ => cases hpolicy
      | wrr weights draw hdraw => cases hpolicy
  | trigger pool cfg targets hprequal =>
      rw [hprequal] at hpolicy
      cases hpolicy
  | compare x y hpo2 =>
      rw [hpo2] at hpolicy
      cases hpolicy
  | decide first xa xb pa pb hpo2 =>
      rw [hpo2] at hpolicy
      cases hpolicy
  | round => cases hpolicy
  | unwind => cases hpolicy

/-- A rotating balancer has sent its queries to the replicas in turn. -/
def Rotates (n : Nat) (s : Cluster H) : Prop :=
  ∀ i b counter, s.balancers[i]? = some b → b.policy = .roundRobin counter →
    counter = wrapU64 (s.queries.countP (Query.sentBy i)) ∧
    ∀ r, s.queries.countP (Query.sentTo i r) =
      visits (2 ^ 64) n r (s.queries.countP (Query.sentBy i))

private theorem Rotates.set_query {n q : Nat} {query query' : Query}
    (h : s.Rotates n) (hquery : s.queries[q]? = some query)
    (hqueries : s'.queries = s.queries.set q query')
    (hbalancers : s'.balancers = s.balancers)
    (hbalancer : query'.balancer = query.balancer)
    (hdestination : query'.destination = query.destination) :
    s'.Rotates n := by
  intro i b counter hb hpolicy
  rw [hbalancers] at hb
  have hby : query'.sentBy i = query.sentBy i := by
    rw [Query.sentBy, hbalancer, hdestination, Query.sentBy]
  have hto : ∀ r, query'.sentTo i r = query.sentTo i r := by
    intro r
    rw [Query.sentTo, hbalancer, hdestination, Query.sentTo]
  rw [hqueries, countP_set_of_eq hquery hby]
  obtain ⟨hcounter, hvisits⟩ := h i b counter hb hpolicy
  refine ⟨hcounter, fun r => ?_⟩
  rw [countP_set_of_eq hquery (hto r), hvisits r]

private theorem Rotates.select {n q : Nat} {query : Query}
    {b b' : Balancer} {phase : QueryPhase} {fired : List Exchange}
    (h : s.Rotates n) (hquery : s.queries[q]? = some query)
    (hb : s.balancers[query.balancer]? = some b)
    (hselects : Selects n s.exchanges q query.balancer b query.phase b'
      phase fired) :
    ({ s with
      balancers := s.balancers.set query.balancer b'
      queries := s.queries.set q { query with phase := phase }
      exchanges := s.exchanges ++ fired } : Cluster H).Rotates n := by
  have hnone : query.destination = none := by
    rw [Query.destination, Query.dispatch_of_unsent hselects.unsent]
    rfl
  intro i b₁ counter hb₁ hpolicy
  dsimp only at hb₁ ⊢
  rw [getElem?_set_of_some hb] at hb₁
  split at hb₁
  · rename_i hself
    cases hb₁
    obtain ⟨k, d, hold, hcounter, hphase, hreplica⟩ :=
      hselects.rotates hpolicy
    obtain ⟨hk, hvisits⟩ := h _ b k hb hold
    have hafter : ({ query with phase := phase } : Query).destination =
        some (k % n) := by
      rw [Query.destination_of_sent hphase, hreplica]
    have hby := countP_set_add hquery ({ query with phase := phase } : Query)
      (Query.sentBy query.balancer)
    have hto := fun r => countP_set_add hquery
      ({ query with phase := phase } : Query)
      (Query.sentTo query.balancer r)
    simp only [Query.sentBy, Query.sentTo, hnone, hafter, decide_true,
      Option.isSome_none, Option.isSome_some, Bool.and_false, Bool.and_true,
      Bool.true_and, Bool.false_eq_true, if_false, if_true, Nat.add_zero,
      reduceCtorEq, decide_false, Option.some.injEq, decide_eq_true_eq]
      at hby hto
    have hturn : turn (2 ^ 64) n
        (s.queries.countP (Query.sentBy query.balancer)) = k % n := by
      rw [turn, hk]
      rfl
    subst hself
    refine ⟨?_, fun r => ?_⟩
    · rw [hby, hcounter, hk]
      exact Nat.mod_add_mod _ _ _
    · rw [hby, hto, visits_succ, hturn, hvisits r]
  · rename_i hne
    have hby : ({ query with phase := phase } : Query).sentBy i =
        query.sentBy i := by
      simp [Query.sentBy, hne]
    have hto : ∀ r, ({ query with phase := phase } : Query).sentTo i r =
        query.sentTo i r := by
      intro r
      simp [Query.sentTo, hne]
    rw [countP_set_of_eq hquery hby]
    obtain ⟨hcounter, hvisits⟩ := h i b₁ counter hb₁ hpolicy
    refine ⟨hcounter, fun r => ?_⟩
    rw [countP_set_of_eq hquery (hto r), hvisits r]

theorem Rotates.step {args : RunArgs} (h : s.Rotates args.n)
    (hstep : Step sort args s s') : s'.Rotates args.n := by
  cases hstep with
  | spawn b hb =>
      intro i b₁ counter hb₁ hpolicy
      have hby : s.queries.countP (Query.sentBy i) =
          (s.queries ++ [(⟨b, .spawned⟩ : Query)]).countP (Query.sentBy i) := by
        simp [Query.sentBy, Query.destination, Query.dispatch]
      have hto : ∀ r, s.queries.countP (Query.sentTo i r) =
          (s.queries ++ [(⟨b, .spawned⟩ : Query)]).countP (Query.sentTo i r) := by
        intro r
        simp [Query.sentTo, Query.destination, Query.dispatch]
      have hold := h i b₁ counter hb₁ hpolicy
      simp only [hby, hto] at hold
      exact hold
  | select q query b b' phase fired hquery hb hselects =>
      exact h.select hquery hb hselects
  | deliver e x b pool cfg seen resp receivedAt hx hsync hphase hb hprequal =>
      intro i b₁ counter hb₁ hpolicy
      dsimp only at hb₁
      rw [getElem?_set_of_some hb] at hb₁
      split at hb₁
      · cases hb₁
        cases hpolicy
      · exact h i b₁ counter hb₁ hpolicy
  | accept q query d st now hquery hphase hhandler hst =>
      refine h.set_query hquery rfl rfl rfl ?_
      rw [Query.destination_of_sent hphase, Query.destination_of_sent rfl]
  | succeed q i query d st handler latencyUs hquery hphase hwaiting hhandler
      hst hget hcompleted =>
      refine h.set_query hquery rfl rfl rfl ?_
      rw [Query.destination_of_sent hphase, Query.destination_of_sent rfl]
  | fail q query d hquery hphase hwaiting =>
      refine h.set_query hquery rfl rfl rfl ?_
      rw [Query.destination_of_sent hphase, Query.destination_of_sent rfl]
  | refresh j b weights weights' fetched hb hwrr hrefresh =>
      intro i b₁ counter hb₁ hpolicy
      dsimp only at hb₁
      rw [getElem?_set_of_some hb] at hb₁
      split at hb₁
      · cases hb₁
        cases hpolicy
      · exact h i b₁ counter hb₁ hpolicy
  | probe e x st phase hx hst hprobes => exact h
  | serve r st st' hst hserve hclosed => exact h

theorem Reachable.rotates (h : Reachable sort dep s) :
    s.Rotates dep.args.n := by
  refine h.invariant ?_ fun _ _ _ hs hstep => hs.step hstep
  intro now s₀ hs₀ i b counter hb hpolicy
  obtain ⟨balancers, hbalancers, rfl⟩ := start_ok hs₀
  obtain ⟨-, b', hnew, rfl⟩ := RunArgs.startBalancers_ok hbalancers
  have hb' := List.eq_of_mem_replicate (List.mem_of_getElem? hb)
  rw [hb'] at hpolicy
  refine ⟨?_, by simp [visits]⟩
  unfold Balancer.new at hnew
  split at hnew <;> cases hnew <;> cases hpolicy
  rfl

theorem sum_sentTo (h : Reachable sort dep s) (r : Nat) :
    ∑ i ∈ Finset.range s.balancers.length,
        s.queries.countP (Query.sentTo i r) =
      s.queries.countP fun query => query.destination = some r :=
  sum_countP_eq (fun query : Query => decide (query.destination = some r))
    h.wired.queries

/--
Round robin is fair, whatever becomes of the queries.  The queries of one
balancer are spread over the replicas to within one, plus one for each time its
counter has wrapped, and exactly evenly as long as it has not or if the number
of replicas divides its range; then the client as a whole is fair to within one
query for each balancer.
-/
theorem round_robin_fair (h : Reachable sort dep s)
    (hname : dep.args.policy = "round-robin") :
    (∀ i < s.balancers.length,
      let count := s.queries.countP (Query.sentBy i)
      (∀ r < dep.args.n, ∀ r' < dep.args.n,
        s.queries.countP (Query.sentTo i r) ≤
          s.queries.countP (Query.sentTo i r') + 1 + count / 2 ^ 64) ∧
      (count ≤ 2 ^ 64 ∨ dep.args.n ∣ 2 ^ 64 → ∀ r < dep.args.n,
        s.queries.countP (Query.sentTo i r) =
          count / dep.args.n + if r < count % dep.args.n then 1 else 0)) ∧
    (s.queries.length ≤ 2 ^ 64 ∨ dep.args.n ∣ 2 ^ 64 →
      ∀ r < dep.args.n, ∀ r' < dep.args.n,
        s.queries.countP (fun query => query.destination = some r) ≤
          s.queries.countP (fun query => query.destination = some r') +
            s.balancers.length) := by
  have hn : 0 < dep.args.n := by
    have := h.wired.enough
    omega
  have hvisits : ∀ i < s.balancers.length, ∀ r,
      s.queries.countP (Query.sentTo i r) = visits (2 ^ 64) dep.args.n r
        (s.queries.countP (Query.sentBy i)) := by
    intro i hi
    have hb := List.getElem?_eq_getElem hi
    obtain ⟨counter, hpolicy⟩ := Policy.eq_roundRobin
      ((h.named _ (List.getElem_mem hi)).trans hname)
    exact (h.rotates i _ counter hb hpolicy).2
  have heven : ∀ i < s.balancers.length,
      (s.queries.countP (Query.sentBy i) ≤ 2 ^ 64 ∨ dep.args.n ∣ 2 ^ 64) →
      ∀ r < dep.args.n, s.queries.countP (Query.sentTo i r) =
        s.queries.countP (Query.sentBy i) / dep.args.n +
          if r < s.queries.countP (Query.sentBy i) % dep.args.n then 1
          else 0 := by
    rintro i hi (hfew | hdvd) r hr
    · rw [hvisits i hi, visits_of_le hn hr hfew]
    · rw [hvisits i hi, visits_of_dvd hn hr hdvd]
  refine ⟨fun i hi => ⟨?_, heven i hi⟩, ?_⟩
  · intro r hr r' hr'
    rw [hvisits i hi, hvisits i hi]
    exact visits_le (by decide) hn hr hr' _
  · intro hrange r hr r' hr'
    rw [← sum_sentTo h, ← sum_sentTo h]
    have hlead : ∀ i ∈ Finset.range s.balancers.length,
        s.queries.countP (Query.sentTo i r) ≤
          s.queries.countP (Query.sentTo i r') + 1 := by
      intro i hi
      have hcount : s.queries.countP (Query.sentBy i) ≤ 2 ^ 64 ∨
          dep.args.n ∣ 2 ^ 64 :=
        hrange.imp_left (List.countP_le_length).trans
      rw [heven i (Finset.mem_range.mp hi) hcount r hr,
        heven i (Finset.mem_range.mp hi) hcount r' hr']
      split <;> split <;> omega
    calc
      _ ≤ ∑ i ∈ Finset.range s.balancers.length,
          (s.queries.countP (Query.sentTo i r') + 1) :=
        Finset.sum_le_sum hlead
      _ = _ := by simp [Finset.sum_add_distrib]

theorem twoRoundRobin_rotates : ∃ s : Cluster Histogram.exact,
    Reachable (.stable _) twoRoundRobin s ∧ s.balancers.length = 1 ∧
      s.queries = [⟨0, .sent (.to 0 none)⟩, ⟨0, .sent (.to 1 none)⟩,
        ⟨0, .sent (.to 0 none)⟩] := by
  have hstart : Reachable (H := .exact) (.stable _) twoRoundRobin _ :=
    ⟨0, _, rfl, .refl⟩
  have hspawn := ((hstart.step (.spawn _ 0 (by decide))).step
    (.spawn _ 0 (by decide))).step (.spawn _ 0 (by decide))
  have hfirst := hspawn.step (.select _ 0 ⟨0, .spawned⟩ ⟨.roundRobin 0, []⟩
    _ _ _ rfl rfl (.pick _ 0 _ (.roundRobin 0)))
  have hsecond := hfirst.step (.select _ 1 ⟨0, .spawned⟩ ⟨.roundRobin 1, []⟩
    _ _ _ rfl rfl (.pick _ 1 _ (.roundRobin 1)))
  have hthird := hsecond.step (.select _ 2 ⟨0, .spawned⟩ ⟨.roundRobin 2, []⟩
    _ _ _ rfl rfl (.pick _ 0 _ (.roundRobin 2)))
  exact ⟨_, hthird, rfl, rfl⟩

theorem twoRoundRobin_fair : ∃ s : Cluster Histogram.exact,
    s.queries = [⟨0, .sent (.to 0 none)⟩, ⟨0, .sent (.to 1 none)⟩,
        ⟨0, .sent (.to 0 none)⟩] ∧
      s.queries.countP (Query.sentTo 0 0) = 2 ∧
      s.queries.countP (Query.sentTo 0 1) = 1 ∧
      s.queries.countP (fun query => query.destination = some 0) ≤
        s.queries.countP (fun query => query.destination = some 1) + 1 := by
  obtain ⟨s, hreach, hone, hqueries⟩ := twoRoundRobin_rotates
  obtain ⟨hbalancers, hclient⟩ := round_robin_fair hreach rfl
  have hlength : s.queries.length ≤ 2 ^ 64 := by
    rw [hqueries]
    decide
  have hcount : s.queries.countP (Query.sentBy 0) = 3 := by
    rw [hqueries]
    rfl
  have hshare := (hbalancers 0 (by omega)).2 (.inl (by omega))
  rw [hcount] at hshare
  have hfair := hclient (.inl hlength) 0 (by decide) 1 (by decide)
  rw [hone] at hfair
  exact ⟨s, hqueries, hshare 0 (by decide), hshare 1 (by decide), hfair⟩

/-! ## Power of two choices -/

theorem Probes.pending {st : ReplicaState} {x : Exchange}
    {phase : ExchangePhase} (h : Probes sort st x phase) :
    x.phase.pending = true := by
  cases h with
  | load hphase => rw [hphase]; rfl
  | answer seen utilEma now resp hphase hprobe => rw [hphase]; rfl
  | fetch seen resp hsync hphase => rw [hphase]; rfl
  | lose hpending => exact hpending

theorem Step.exchange_kept {args : RunArgs} (hstep : Step sort args s s')
    {e : Nat} {x : Exchange} (hx : s.exchanges[e]? = some x) :
    ∃ x', s'.exchanges[e]? = some x' ∧ x'.query = x.query ∧
      x'.replica = x.replica ∧
      ∀ p, x.phase.returned = some p → x'.phase.returned = some p := by
  have hsame : ∃ x', s.exchanges[e]? = some x' ∧ x'.query = x.query ∧
      x'.replica = x.replica ∧
      ∀ p, x.phase.returned = some p → x'.phase.returned = some p :=
    ⟨x, hx, rfl, rfl, fun _ => id⟩
  cases hstep with
  | select q query b b' phase fired hquery hb hselects =>
      refine ⟨x, ?_, rfl, rfl, fun _ => id⟩
      rw [List.getElem?_append_left (List.getElem?_eq_some_iff.mp hx).1]
      exact hx
  | probe e' y st phase hy hst hprobes =>
      simp only [getElem?_set_of_some hy]
      split
      · rename_i heq
        subst heq
        rw [hy, Option.some.injEq] at hx
        subst hx
        refine ⟨_, rfl, rfl, rfl, fun p hp => ?_⟩
        exact absurd (hprobes.pending) (by simp [ExchangePhase.not_pending hp])
      · exact ⟨x, hx, rfl, rfl, fun _ => id⟩
  | deliver e' y b pool cfg seen resp receivedAt hy hsync hphase hb hpolicy =>
      simp only [getElem?_set_of_some hy]
      split
      · rename_i heq
        subst heq
        rw [hy, Option.some.injEq] at hx
        subst hx
        refine ⟨_, rfl, rfl, rfl, fun p hp => ?_⟩
        rw [hphase] at hp
        cases hp
      · exact ⟨x, hx, rfl, rfl, fun _ => id⟩
  | _ => exact hsame

structure Paired (s : Cluster H) (q first : Nat) (xa xb : Exchange) : Prop where
  left : s.exchanges[first]? = some xa
  right : s.exchanges[first + 1]? = some xb
  queries : xa.query = q ∧ xb.query = q
  distinct : xa.replica ≠ xb.replica

def Compared (s : Cluster H) : Prop :=
  ∀ (q : Nat) (query : Query), s.queries[q]? = some query →
    (∀ first, query.phase = .comparing first →
      ∃ xa xb, s.Paired q first xa xb) ∧
    ∀ r, query.destination = some r →
      ∃ first xa xb pa pb, s.Paired q first xa xb ∧
        xa.phase.returned = some pa ∧ xb.phase.returned = some pb ∧
        r = Po2.choose xa.replica xb.replica pa pb

theorem Paired.step {args : RunArgs} {q first : Nat} {xa xb : Exchange}
    (h : s.Paired q first xa xb) (hstep : Step sort args s s') :
    ∃ xa' xb', s'.Paired q first xa' xb' ∧ xa'.replica = xa.replica ∧
      xb'.replica = xb.replica ∧
      (∀ p, xa.phase.returned = some p → xa'.phase.returned = some p) ∧
      ∀ p, xb.phase.returned = some p → xb'.phase.returned = some p := by
  obtain ⟨xa', ha, hqa, hra, hpa⟩ := hstep.exchange_kept h.left
  obtain ⟨xb', hb, hqb, hrb, hpb⟩ := hstep.exchange_kept h.right
  refine ⟨xa', xb', ⟨ha, hb, ?_, ?_⟩, hra, hrb, hpa, hpb⟩
  · exact ⟨hqa.trans h.queries.1, hqb.trans h.queries.2⟩
  · rw [hra, hrb]
    exact h.distinct

theorem Compared.keep {args : RunArgs} (h : s.Compared)
    (hstep : Step sort args s s') {q : Nat} {query query' : Query}
    (hquery : s.queries[q]? = some query)
    (hcomparing : ∀ first, query'.phase = .comparing first →
      query.phase = .comparing first)
    (hdestination : query'.destination = query.destination) :
    (∀ first, query'.phase = .comparing first →
      ∃ xa xb, s'.Paired q first xa xb) ∧
    ∀ r, query'.destination = some r →
      ∃ first xa xb pa pb, s'.Paired q first xa xb ∧
        xa.phase.returned = some pa ∧ xb.phase.returned = some pb ∧
        r = Po2.choose xa.replica xb.replica pa pb := by
  obtain ⟨hwaits, hchose⟩ := h q query hquery
  constructor
  · intro first hphase
    obtain ⟨xa, xb, hpaired⟩ := hwaits first (hcomparing first hphase)
    obtain ⟨xa', xb', hpaired', -⟩ := hpaired.step hstep
    exact ⟨xa', xb', hpaired'⟩
  · intro r hr
    obtain ⟨first, xa, xb, pa, pb, hpaired, hpa, hpb, rfl⟩ :=
      hchose r (hdestination ▸ hr)
    obtain ⟨xa', xb', hpaired', hra, hrb, hpa', hpb'⟩ := hpaired.step hstep
    exact ⟨first, xa', xb', pa, pb, hpaired', hpa' pa hpa, hpb' pb hpb,
      by rw [hra, hrb]⟩

private theorem Compared.set_query {args : RunArgs} (h : s.Compared)
    (hstep : Step sort args s s') {q : Nat} {query query' : Query}
    (hquery : s.queries[q]? = some query)
    (hqueries : s'.queries = s.queries.set q query')
    (hcomparing : ∀ first, query'.phase ≠ .comparing first)
    (hdestination : query'.destination = query.destination) :
    s'.Compared := by
  intro q' other hget
  rw [hqueries, getElem?_set_of_some hquery] at hget
  split at hget
  · rename_i heq
    subst heq
    cases hget
    exact h.keep hstep hquery
      (fun first hphase => absurd hphase (hcomparing first)) hdestination
  · exact h.keep hstep hget (fun _ => id) rfl

theorem Compared.step {args : RunArgs} (h : s.Compared)
    (hpo2 : ∀ b ∈ s.balancers, b.policy = .po2)
    (hstep : Step sort args s s') : s'.Compared := by
  have hstep' := hstep
  have hkeep := @Compared.keep H sort s s' args h hstep
  have hsame : ∀ (q : Nat) (query : Query), s.queries[q]? = some query → _ :=
    fun q query hquery => @hkeep q query query hquery (fun _ => id) rfl
  have hpaired := fun q first xa xb (hp : s.Paired q first xa xb) =>
    hp.step hstep
  cases hstep with
  | spawn b hb =>
      intro q query hget
      dsimp only at hget
      rw [getElem?_concat] at hget
      split at hget
      · cases hget
        exact ⟨nofun, nofun⟩
      · exact hsame q query hget
  | select q query b b' phase fired hquery hb hselects =>
      have hpolicy := hpo2 b (List.mem_of_getElem? hb)
      intro q' query' hget
      dsimp only at hget
      rw [getElem?_set_of_some hquery] at hget
      split at hget
      · rename_i heq
        subst heq
        cases hget
        generalize hold : query.phase = old at hselects
        cases hselects with
        | pick r policy hpick =>
            rcases b with ⟨old, events⟩
            cases hpolicy
            cases hpick
        | trigger pool cfg targets hprequal =>
            rw [hpolicy] at hprequal
            cases hprequal
        | round pool pool' cfg now random r hprequal =>
            rw [hpolicy] at hprequal
            cases hprequal
        | unwind pool pool' cfg now random e hprequal =>
            rw [hpolicy] at hprequal
            cases hprequal
        | compare x y _ hx hy =>
            refine ⟨?_, nofun⟩
            rintro first ⟨⟩
            have hpair := (Po2.pair_bijOn args.n).mapsTo (x := (x, y))
              ⟨hx, hy⟩
            refine ⟨⟨q, query.balancer, (Po2.pair x y).1, true, .requested⟩,
              ⟨q, query.balancer, (Po2.pair x y).2, true, .requested⟩, ?_, ?_,
              ⟨rfl, rfl⟩, hpair.2.2⟩
            · simp
            · simp
        | decide first xa xb pa pb _ ha hb' hpa hpb =>
            refine ⟨nofun, ?_⟩
            rintro r ⟨⟩
            obtain ⟨ya, yb, hp⟩ := (h q query hquery).1 first hold
            obtain ⟨ya', yb', hp', hra, hrb, hpa', hpb'⟩ :=
              hpaired _ _ _ _ hp
            have hya := hp.left
            have hyb := hp.right
            rw [ha, Option.some.injEq] at hya
            rw [hb', Option.some.injEq] at hyb
            subst hya hyb
            refine ⟨first, ya', yb', pa, pb, hp', hpa' pa hpa, hpb' pb hpb,
              ?_⟩
            rw [hra, hrb]
            rfl
      · exact hsame q' query' hget
  | accept q query d st now hquery hphase hhandler hst =>
      refine h.set_query hstep' hquery rfl nofun ?_
      rw [Query.destination_of_sent hphase, Query.destination_of_sent rfl]
  | succeed q i query d st handler latencyUs hquery hphase hwaiting hhandler
      hst hget' hcompleted =>
      refine h.set_query hstep' hquery rfl nofun ?_
      rw [Query.destination_of_sent hphase, Query.destination_of_sent rfl]
  | fail q query d hquery hphase hwaiting =>
      refine h.set_query hstep' hquery rfl nofun ?_
      rw [Query.destination_of_sent hphase, Query.destination_of_sent rfl]
  | _ => exact hsame

theorem Reachable.compared (h : Reachable sort dep s)
    (hname : dep.args.policy = "po2") : s.Compared := by
  refine h.invariant ?_ fun s s' hreach hs hstep => hs.step ?_ hstep
  · intro now s₀ hs₀
    obtain ⟨balancers, -, rfl⟩ := start_ok hs₀
    simp [Compared]
  · intro b hb
    exact Policy.eq_po2 ((hreach.named b hb).trans hname)

end Cluster

/-- A reading no worse than the other, where both count. -/
def Po2.NoWorse (p q : Option ProbeResponse) : Prop :=
  (q.isSome → p.isSome) ∧ ∀ x ∈ p, ∀ y ∈ q, x.rif ≤ y.rif

theorem Po2.choose_cases (a b : Nat) (pa pb : Option ProbeResponse) :
    (choose a b pa pb = a ∧ NoWorse pa pb) ∨
      (choose a b pa pb = b ∧ NoWorse pb pa) := by
  unfold choose NoWorse
  rcases pa with _ | pa <;> rcases pb with _ | pb
  · simp
  · simp
  · simp
  · by_cases hle : pa.rif ≤ pb.rif
    · simp [hle]
    · simp [hle, (not_le.mp hle).le]

namespace Cluster

variable {H : Histogram} {sort : SortByKey RingEntry} {dep : Deployment}
  {s s' : Cluster H}

/-- The reply that a query has waited for, as a reading of its replica. -/
def Reads (sort : SortByKey RingEntry) (s : Cluster H) (x : Exchange)
    (p : Option ProbeResponse) : Prop :=
  x ∈ s.exchanges ∧ x.phase.returned = some p ∧ ∀ resp ∈ p,
    ∃ seen st : ReplicaState, s.replicas[x.replica]? = some st ∧
      seen.ReadFrom sort resp st ∧ resp.rif = wrapU32 seen.live

theorem Reachable.reads (h : Reachable sort dep s) {x : Exchange}
    {p : Option ProbeResponse} (hx : x ∈ s.exchanges)
    (hp : x.phase.returned = some p) : s.Reads sort x p := by
  refine ⟨hx, hp, ?_⟩
  rintro resp hresp
  have hlt := (h.wired.exchanges x hx).1
  rw [← h.wired.replicas] at hlt
  obtain ⟨st, hst⟩ : ∃ st, s.replicas[x.replica]? = some st :=
    ⟨_, List.getElem?_eq_getElem hlt⟩
  obtain ⟨a, ha, -⟩ := h.wired.reachable _ _ hst
  have htruthful := h.truthful x hx a st ha hst
  rw [Exchange.Truthful] at htruthful
  cases hphase : x.phase with
  | fetched seen resp' =>
      rw [hphase] at hp htruthful
      rw [← Option.some.inj hp, Option.mem_some_iff] at hresp
      subst hresp
      exact ⟨seen, st, hst, htruthful.2,
        htruthful.2.rif.trans htruthful.1.accounted.counted⟩
  | lost =>
      rw [hphase] at hp
      rw [← Option.some.inj hp] at hresp
      cases hresp
  | _ =>
      rw [hphase] at hp
      cases hp

/--
Power of two choices, over any interleaving: a query that is on its way was
sent by comparing two distinct replicas, both of whose probes were over; the
one chosen has answered if any of them has, its reading is no higher than that
of the other, and both readings are states their replicas passed through.
-/
theorem po2_compares (h : Reachable sort dep s)
    (hname : dep.args.policy = "po2") {q : Nat} {query : Query} {r : Nat}
    (hquery : s.queries[q]? = some query)
    (hr : query.destination = some r) :
    ∃ x y px py, s.Reads sort x px ∧ s.Reads sort y py ∧
      x.query = q ∧ y.query = q ∧ x.replica = r ∧ y.replica ≠ r ∧
      y.replica < dep.args.n ∧ Po2.NoWorse px py := by
  obtain ⟨first, xa, xb, pa, pb, hpaired, hpa, hpb, rfl⟩ :=
    ((h.compared hname) q query hquery).2 r hr
  have ha := List.mem_of_getElem? hpaired.left
  have hb := List.mem_of_getElem? hpaired.right
  have hreada := h.reads ha hpa
  have hreadb := h.reads hb hpb
  rcases Po2.choose_cases xa.replica xb.replica pa pb with
    ⟨hchoose, hbetter⟩ | ⟨hchoose, hbetter⟩
  · rw [hchoose]
    exact ⟨xa, xb, pa, pb, hreada, hreadb, hpaired.queries.1,
      hpaired.queries.2, rfl, hpaired.distinct.symm,
      (h.wired.exchanges xb hb).1, hbetter⟩
  · rw [hchoose]
    exact ⟨xb, xa, pb, pa, hreadb, hreada, hpaired.queries.2,
      hpaired.queries.1, rfl, hpaired.distinct,
      (h.wired.exchanges xa ha).1, hbetter⟩

def twoPo2 : Deployment where
  args := { twoRoundRobin.args with policy := "po2" }
  replicas := List.replicate 2 oneCore
  aligned := rfl

/-- The probe of the first replica is lost, so the second gets the query. -/
theorem twoPo2_compares : ∃ s : Cluster Histogram.exact,
    s.queries = [⟨0, .sent (.to 1 none)⟩] ∧
      ∃ x y px py, s.Reads (.stable _) x px ∧ s.Reads (.stable _) y py ∧
        x.replica = 1 ∧ y.replica ≠ 1 ∧ Po2.NoWorse px py := by
  have hstart : Reachable (H := .exact) (.stable _) twoPo2 _ :=
    ⟨0, _, rfl, .refl⟩
  have hspawn := hstart.step (.spawn _ 0 (by decide))
  have hcompare := hspawn.step (.select _ 0 ⟨0, .spawned⟩ ⟨.po2, []⟩ _ _ _
    rfl rfl (.compare _ 0 0 rfl (by decide) (by decide)))
  have hlose := hcompare.step (.probe _ 0 _ _ _ rfl rfl (.lose _ rfl))
  have hload := hlose.step (.probe _ 1 _ _ _ rfl rfl (.load _ rfl))
  have hanswer := hload.step (.probe _ 1 _ _ _ rfl rfl
    (.answer _ _ 0 5 ⟨0, 0, 0⟩ rfl rfl))
  have hfetch := hanswer.step (.probe _ 1 _ _ _ rfl rfl
    (.fetch _ _ _ rfl rfl))
  have hdecide := hfetch.step (.select _ 0 ⟨0, .comparing 0⟩ ⟨.po2, []⟩ _ _ _
    rfl rfl (.decide _ 0 _ _ none (some ⟨0, 0, 0⟩) rfl rfl rfl rfl rfl))
  obtain ⟨s, hreach, hqueries⟩ : ∃ s : Cluster Histogram.exact,
      Reachable (.stable _) twoPo2 s ∧
        s.queries = [⟨0, .sent (.to 1 none)⟩] := ⟨_, hdecide, rfl⟩
  have hquery : s.queries[0]? = some ⟨0, .sent (.to 1 none)⟩ := by
    rw [hqueries]
    rfl
  obtain ⟨x, y, px, py, hx, hy, -, -, hxr, hyr, -, hbetter⟩ :=
    po2_compares (r := 1) hreach rfl hquery rfl
  exact ⟨s, hqueries, x, y, px, py, hx, hy, hxr, hyr, hbetter⟩

end Cluster

end Prequal
