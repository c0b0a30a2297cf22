import Prequal.Cluster.Requests

/-!
# Probe exchanges

A reply carries a state that the replica really passed through.  A query fires
the probes its policy asks for once, to distinct replicas, so the probes fired
are a multiple of the queries whatever becomes of either.
-/

namespace Prequal

open Foundation Relation

/-! ## Replies -/

/-- What the client may believe about the replica behind an exchange. -/
def Exchange.Truthful (sort : SortByKey RingEntry) (slots : Nat)
    (st : ReplicaState) (x : Exchange) : Prop :=
  match x.phase with
  | .requested | .lost => True
  | .loaded seen =>
      seen.Reachable slots ∧ ReflTransGen ReplicaState.Step seen st
  | .answered seen resp | .fetched seen resp | .pooled seen resp _ _ =>
      seen.Reachable slots ∧ ReplicaState.ReadFrom sort seen resp st

theorem Exchange.Truthful.step {sort : SortByKey RingEntry} {slots : Nat}
    {st st' : ReplicaState} {x : Exchange} (h : x.Truthful sort slots st)
    (hstep : st.Step st') : x.Truthful sort slots st' := by
  unfold Truthful at h ⊢
  split at h
  · trivial
  · trivial
  · exact ⟨h.1, h.2.tail hstep⟩
  · exact ⟨h.1, h.2.step hstep⟩
  · exact ⟨h.1, h.2.step hstep⟩
  · exact ⟨h.1, h.2.step hstep⟩

namespace Cluster

variable {H : Histogram} {sort : SortByKey RingEntry} {dep : Deployment}
  {s s' : Cluster H}

theorem Probes.truthful {slots : Nat} {st : ReplicaState} {x : Exchange}
    {phase : ExchangePhase} (h : Probes sort st x phase)
    (hst : st.Reachable slots) (hx : x.Truthful sort slots st) :
    ({ x with phase := phase } : Exchange).Truthful sort slots st := by
  unfold Exchange.Truthful at hx ⊢
  cases h with
  | load hphase => exact ⟨hst, .refl⟩
  | answer seen utilEma now resp hphase hprobe =>
      rw [hphase] at hx
      exact ⟨hx.1, st, utilEma, now, hx.2, .refl, hprobe⟩
  | fetch seen resp hsync hphase =>
      rw [hphase] at hx
      exact hx
  | lose hphase => trivial

def Truthful (sort : SortByKey RingEntry) (dep : Deployment)
    (s : Cluster H) : Prop :=
  ∀ x ∈ s.exchanges, ∀ a st, dep.replicas[x.replica]? = some a →
    s.replicas[x.replica]? = some st → x.Truthful sort a.slots st

private theorem truthful_set {r : Nat} {st st' : ReplicaState}
    (h : s.Truthful sort dep) (hst : s.replicas[r]? = some st)
    (hstep : st.Step st') {x : Exchange} (hx : x ∈ s.exchanges)
    {a : ServerArgs} {st'' : ReplicaState}
    (ha : dep.replicas[x.replica]? = some a)
    (hget : (s.replicas.set r st')[x.replica]? = some st'') :
    x.Truthful sort a.slots st'' := by
  rw [getElem?_set_of_some hst] at hget
  split at hget
  · rename_i heq
    rw [← Option.some.inj hget]
    exact (h x hx a st ha (heq ▸ hst)).step hstep
  · exact h x hx a st'' ha hget

theorem Truthful.step (h : s.Truthful sort dep) (hwired : s.Wired dep)
    (hstep : Step sort dep.args s s') : s'.Truthful sort dep := by
  cases hstep with
  | select q query b b' phase fired hquery hb hselects =>
      intro x hx a st ha hst
      rcases List.mem_append.mp hx with hold | hnew
      · exact h x hold a st ha hst
      · obtain ⟨-, -, -, hphase⟩ := hselects.fired_wired x hnew
        rw [Exchange.Truthful, hphase]
        trivial
  | probe e x st phase hx hst hprobes =>
      refine forall_mem_set h fun a st' ha hst' => ?_
      rw [hst, Option.some.injEq] at hst'
      subst hst'
      obtain ⟨a', ha', hreach⟩ := hwired.reachable x.replica st hst
      rw [ha, Option.some.injEq] at ha'
      subst ha'
      exact hprobes.truthful hreach
        (h x (List.mem_of_getElem? hx) a st ha hst)
  | deliver e x b pool cfg seen resp receivedAt hx hsync hphase hb hpolicy =>
      refine forall_mem_set h fun a st ha hst => ?_
      have hold := h x (List.mem_of_getElem? hx) a st ha hst
      rw [Exchange.Truthful, hphase] at hold
      exact hold
  | accept q query d st now hquery hphase hhandler hst =>
      exact fun x hx a st' ha hst' =>
        truthful_set h hst (.arrive st now) hx ha hst'
  | serve r st st' hst hserve hclosed =>
      exact fun x hx a st'' ha hst'' => truthful_set h hst hserve hx ha hst''
  | spawn b hb => exact h
  | succeed q i query d st handler latencyUs hquery hphase hwaiting hhandler
      hst hget hcompleted => exact h
  | fail q query d hquery hphase hwaiting => exact h
  | refresh i b weights weights' fetched hb hpolicy hrefresh => exact h

theorem Reachable.truthful (h : Reachable sort dep s) :
    s.Truthful sort dep := by
  refine h.invariant ?_ fun _ _ hreach hs hstep => hs.step hreach.wired hstep
  intro now s₀ hs₀
  obtain ⟨balancers, -, rfl⟩ := start_ok hs₀
  simp [Truthful]

end Cluster

/-! ## Fan-out -/

/-- How many probes one selection fires. -/
def Policy.fanOut (n : Nat) : Policy → Nat
  | .random | .roundRobin _ | .wrr _ => 0
  | .po2 => 2
  | .prequal _ cfg => cfg.probeCount n

def RunArgs.fanOut (args : RunArgs) : Nat :=
  match args.policy with
  | "po2" => 2
  | "prequal" => args.config.probeCount args.n
  | _ => 0

theorem Balancer.new_fanOut {args : RunArgs} {b : Balancer}
    (h : Balancer.new args.policy args.n args.config = .ok b) :
    b.policy.fanOut args.n = args.fanOut := by
  unfold Balancer.new at h
  unfold RunArgs.fanOut
  split at h
  · rename_i hname
    cases h
    simp [hname, Policy.fanOut]
  · rename_i hname
    cases h
    simp [hname, Policy.fanOut]
  · rename_i hname
    cases h
    simp [hname, Policy.fanOut]
  · rename_i hname
    cases h
    simp [hname, Policy.fanOut]
  · rename_i hname
    cases h
    simp [hname, Policy.fanOut]
  · cases h

theorem Policy.Picks.fanOut {n r : Nat} {policy policy' : Policy}
    (h : Picks n policy r policy') (m : Nat) :
    policy.fanOut m = 0 ∧ policy'.fanOut m = 0 := by
  cases h <;> exact ⟨rfl, rfl⟩

namespace Cluster

variable {H : Histogram} {sort : SortByKey RingEntry} {dep : Deployment}
  {s s' : Cluster H}

section Selects

variable {n q self : Nat} {exchanges fired : List Exchange} {b b' : Balancer}
  {phase phase' : QueryPhase}

theorem Selects.fanOut
    (h : Selects n exchanges q self b phase b' phase' fired) (m : Nat) :
    b'.policy.fanOut m = b.policy.fanOut m := by
  cases h with
  | pick r policy hpick =>
      obtain ⟨hold, hnew⟩ := hpick.fanOut m
      exact hnew.trans hold.symm
  | round pool pool' cfg now random r hpolicy hrandom hexec =>
      rw [hpolicy]
      rfl
  | unwind pool pool' cfg now random e hpolicy hrandom hexec =>
      rw [hpolicy]
      rfl
  | _ => rfl

theorem Selects.fired_count
    (h : Selects n exchanges q self b phase b' phase' fired) :
    phase' ≠ .spawned ∧ (fired.map Exchange.replica).Nodup ∧
      fired.length = if phase = .spawned then b.policy.fanOut n else 0 := by
  cases h with
  | pick r policy hpick =>
      refine ⟨by simp, .nil, ?_⟩
      rw [if_pos rfl, (hpick.fanOut n).1]
      rfl
  | trigger pool cfg targets hpolicy hdistinct hcount hbelow =>
      refine ⟨by simp, ?_, ?_⟩
      · rw [List.map_map]
        have hid : Exchange.replica ∘ (fun r =>
            (⟨q, self, r, false, .requested⟩ : Exchange)) = id := rfl
        rw [hid, List.map_id]
        exact hdistinct
      · rw [if_pos rfl, List.length_map, hcount, hpolicy]
        rfl
  | compare x y hpolicy hx hy =>
      have hpair := (Po2.pair_bijOn n).mapsTo (x := (x, y)) ⟨hx, hy⟩
      refine ⟨by simp, ?_, ?_⟩
      · simpa using hpair.2.2
      · rw [if_pos rfl, hpolicy]
        rfl
  | round => exact ⟨by simp, .nil, by simp⟩
  | unwind => exact ⟨by simp, .nil, by simp⟩
  | decide => exact ⟨by simp, .nil, by simp⟩

end Selects

def targets (s : Cluster H) (q : Nat) : List Nat :=
  s.exchanges.filterMap fun x => if x.query = q then some x.replica else none

structure FannedOut (args : RunArgs) (s : Cluster H) : Prop where
  policies : ∀ b ∈ s.balancers, b.policy.fanOut args.n = args.fanOut
  owned : ∀ x ∈ s.exchanges, ∃ query,
    s.queries[x.query]? = some query ∧ query.balancer = x.balancer
  total : s.exchanges.length =
    args.fanOut * s.queries.countP fun query => query.phase ≠ .spawned
  fired : ∀ (q : Nat) (query : Query), s.queries[q]? = some query →
    (s.targets q).Nodup ∧ (s.targets q).length =
      if query.phase = .spawned then 0 else args.fanOut

theorem FannedOut.start {now : Instant}
    (h : Cluster.start H dep now = .ok s) : s.FannedOut dep.args := by
  obtain ⟨balancers, hbalancers, rfl⟩ := start_ok h
  obtain ⟨-, b, hnew, rfl⟩ := RunArgs.startBalancers_ok hbalancers
  refine ⟨?_, by simp, by simp, by simp⟩
  intro b' hb'
  rw [List.eq_of_mem_replicate hb']
  exact Balancer.new_fanOut hnew

theorem FannedOut.set_query {args : RunArgs} {q : Nat}
    {query query' : Query} (h : s.FannedOut args)
    (hquery : s.queries[q]? = some query)
    (hqueries : s'.queries = s.queries.set q query')
    (hexchanges : s'.exchanges = s.exchanges)
    (hbalancers : s'.balancers = s.balancers)
    (hbalancer : query'.balancer = query.balancer)
    (hbefore : query.phase ≠ .spawned) (hafter : query'.phase ≠ .spawned) :
    s'.FannedOut args := by
  obtain ⟨hpolicies, howned, htotal, hfired⟩ := h
  constructor
  · rwa [hbalancers]
  · intro x hx
    rw [hexchanges] at hx
    obtain ⟨owner, howner, hself⟩ := howned x hx
    rw [hqueries, getElem?_set_of_some hquery]
    split
    · rename_i heq
      rw [← heq, hquery, Option.some.injEq] at howner
      exact ⟨query', rfl, hbalancer.trans (howner ▸ hself)⟩
    · exact ⟨owner, howner, hself⟩
  · have hcount := countP_set_add hquery query'
      fun query => query.phase ≠ .spawned
    simp only [hbefore, hafter, ne_eq, not_false_eq_true, decide_true,
      if_true, Nat.add_right_cancel_iff] at hcount
    rw [hexchanges, hqueries, htotal]
    simp only [ne_eq, hcount]
  · intro q' query'' hget
    have htargets : s'.targets q' = s.targets q' := by
      rw [targets, targets, hexchanges]
    rw [htargets]
    rw [hqueries, getElem?_set_of_some hquery] at hget
    split at hget
    · rename_i heq
      rw [← Option.some.inj hget, if_neg hafter, ← heq]
      have hold := hfired q query hquery
      rwa [if_neg hbefore] at hold
    · exact hfired q' query'' hget

theorem FannedOut.set_exchange {args : RunArgs} {e : Nat} {x y : Exchange}
    (h : s.FannedOut args) (hx : s.exchanges[e]? = some x)
    (hexchanges : s'.exchanges = s.exchanges.set e y)
    (hqueries : s'.queries = s.queries)
    (hquery : y.query = x.query) (hself : y.balancer = x.balancer)
    (hreplica : y.replica = x.replica)
    (hpolicies : ∀ b ∈ s'.balancers,
      b.policy.fanOut args.n = args.fanOut) : s'.FannedOut args := by
  obtain ⟨-, howned, htotal, hfired⟩ := h
  refine ⟨hpolicies, ?_, ?_, ?_⟩
  · rw [hexchanges, hqueries]
    refine forall_mem_set howned ?_
    rw [hquery, hself]
    exact howned x (List.mem_of_getElem? hx)
  · rw [hexchanges, hqueries, List.length_set, htotal]
  · intro q query hget
    rw [hqueries] at hget
    obtain ⟨hset, hold⟩ := filterMap_set_perm
      (fun x : Exchange => if x.query = q then some x.replica else none) hx y
    rw [hquery, hreplica] at hset
    have hperm : (s'.targets q).Perm (s.targets q) := by
      rw [targets, hexchanges]
      exact hset.trans hold.symm
    rw [hperm.nodup_iff, hperm.length_eq]
    exact hfired q query hget

theorem FannedOut.step (h : s.FannedOut dep.args)
    (hstep : Step sort dep.args s s') : s'.FannedOut dep.args := by
  cases hstep with
  | spawn b hb =>
      obtain ⟨hpolicies, howned, htotal, hfired⟩ := h
      refine ⟨hpolicies, ?_, ?_, ?_⟩
      · intro x hx
        obtain ⟨owner, howner, hself⟩ := howned x hx
        refine ⟨owner, ?_, hself⟩
        rw [List.getElem?_append_left
          (List.getElem?_eq_some_iff.mp howner).1]
        exact howner
      · simpa using htotal
      · intro q query hget
        rw [getElem?_concat] at hget
        split at hget
        · rename_i hnew
          have hnil : s.targets q = [] := by
            rw [targets, List.filterMap_eq_nil_iff]
            intro x hx
            obtain ⟨owner, howner, -⟩ := howned x hx
            have hlt := (List.getElem?_eq_some_iff.mp howner).1
            exact if_neg (by omega)
          rw [← Option.some.inj hget]
          change (s.targets q).Nodup ∧ (s.targets q).length = _
          rw [hnil]
          exact ⟨.nil, rfl⟩
        · exact hfired q query hget
  | select q query b b' phase fired hquery hb hselects =>
      obtain ⟨hpolicies, howned, htotal, hfired⟩ := h
      obtain ⟨hafter, hdistinct, hcount⟩ := hselects.fired_count
      have hmem := List.mem_of_getElem? hb
      rw [hpolicies b hmem] at hcount
      refine ⟨?_, ?_, ?_, ?_⟩
      · exact forall_mem_set hpolicies
          ((hselects.fanOut dep.args.n).trans (hpolicies b hmem))
      · intro x hx
        simp only [getElem?_set_of_some hquery]
        rcases List.mem_append.mp hx with hold | hnew
        · obtain ⟨owner, howner, hself⟩ := howned x hold
          split
          · rename_i heq
            rw [← heq, hquery, Option.some.injEq] at howner
            exact ⟨_, rfl, howner ▸ hself⟩
          · exact ⟨owner, howner, hself⟩
        · obtain ⟨hq, hself, -⟩ := hselects.fired_wired x hnew
          rw [if_pos hq.symm]
          exact ⟨_, rfl, hself.symm⟩
      · have hset := countP_set_add hquery { query with phase := phase }
          fun query => query.phase ≠ .spawned
        rw [List.length_append, htotal, hcount]
        by_cases hspawned : query.phase = .spawned
        · simp only [hspawned, hafter, ne_eq, not_true_eq_false,
            not_false_eq_true, decide_true, decide_false, if_true,
            Bool.false_eq_true, if_false, Nat.add_zero] at hset ⊢
          rw [hset, Nat.mul_add, Nat.mul_one]
        · simp only [hspawned, hafter, ne_eq, not_false_eq_true, decide_true,
            if_true, if_false, Nat.add_zero,
            Nat.add_right_cancel_iff] at hset ⊢
          rw [hset]
      · intro q' query' hget
        have happend : (s.exchanges ++ fired).filterMap (fun x =>
            if x.query = q' then some x.replica else none) =
            s.targets q' ++ if q = q' then fired.map Exchange.replica
              else [] := by
          rw [List.filterMap_append, targets]
          congr 1
          split
          · rename_i heq
            rw [← List.filterMap_eq_map]
            refine List.filterMap_congr fun x hx => ?_
            rw [(hselects.fired_wired x hx).1, if_pos heq]
            rfl
          · rename_i hne
            rw [List.filterMap_eq_nil_iff]
            intro x hx
            rw [(hselects.fired_wired x hx).1, if_neg hne]
        rw [targets, happend]
        rw [getElem?_set_of_some hquery] at hget
        split at hget
        · rename_i heq
          obtain ⟨hnodup, hlength⟩ := hfired q query hquery
          rw [← Option.some.inj hget, if_pos heq, if_neg hafter, ← heq]
          by_cases hspawned : query.phase = .spawned
          · rw [if_pos hspawned] at hlength hcount
            rw [List.eq_nil_of_length_eq_zero hlength, List.nil_append,
              List.length_map]
            exact ⟨hdistinct, hcount⟩
          · rw [if_neg hspawned] at hlength hcount
            rw [List.eq_nil_of_length_eq_zero hcount, List.map_nil,
              List.append_nil]
            exact ⟨hnodup, hlength⟩
        · rename_i hne
          rw [if_neg hne, List.append_nil]
          exact hfired q' query' hget
  | probe e x st phase hx hst hprobes =>
      exact h.set_exchange hx rfl rfl rfl rfl rfl h.policies
  | deliver e x b pool cfg seen resp receivedAt hx hsync hphase hb hpolicy =>
      refine h.set_exchange hx rfl rfl rfl rfl rfl ?_
      refine forall_mem_set h.policies ?_
      have hold := h.policies b (List.mem_of_getElem? hb)
      rw [hpolicy] at hold
      exact hold
  | accept q query d st now hquery hphase hhandler hst =>
      exact h.set_query hquery rfl rfl rfl rfl (by simp [hphase]) (by simp)
  | serve r st st' hst hserve hclosed =>
      exact ⟨h.policies, h.owned, h.total, h.fired⟩
  | succeed q i query d st handler latencyUs hquery hphase hwaiting hhandler
      hst hget hcompleted =>
      exact h.set_query hquery rfl rfl rfl rfl (by simp [hphase]) (by simp)
  | fail q query d hquery hphase hwaiting =>
      exact h.set_query hquery rfl rfl rfl rfl (by simp [hphase]) (by simp)
  | refresh i b weights weights' fetched hb hpolicy hrefresh =>
      refine ⟨forall_mem_set h.policies ?_, h.owned, h.total, h.fired⟩
      have hold := h.policies b (List.mem_of_getElem? hb)
      rw [hpolicy] at hold
      exact hold

theorem Reachable.fannedOut (h : Reachable sort dep s) :
    s.FannedOut dep.args :=
  h.invariant (fun _ _ => FannedOut.start) fun _ _ _ hs hstep => hs.step hstep

theorem RunArgs.fanOut_le {args : RunArgs} (hn : 2 ≤ args.n) :
    args.fanOut ≤ args.n := by
  unfold RunArgs.fanOut
  split
  · exact hn
  · exact Nat.min_le_right _ _
  · exact Nat.zero_le _

def oneCore : ServerArgs := ⟨1⟩

def twoPrequal : Deployment where
  args := { twoRoundRobin.args with policy := "prequal" }
  replicas := [oneCore, oneCore]
  aligned := rfl

theorem twoPrequal_probes : ∃ s : Cluster Histogram.exact,
    Reachable (.stable _) twoPrequal s ∧
      s.queries = [⟨0, .sent ⟨0, some 2, some 0, .waiting⟩⟩] ∧
      s.exchanges =
        [⟨0, 0, 0, false, .pooled (.new oneCore.slots) ⟨0, 0, 0⟩ 10 0⟩,
          ⟨0, 0, 1, false, .pooled (.new oneCore.slots) ⟨0, 0, 0⟩ 20 1⟩] ∧
      ∃ pool, s.balancers = [⟨.prequal pool twoPrequal.args.config,
        [.insert 0 ⟨0, 0, 0⟩ 10, .insert 1 ⟨0, 0, 0⟩ 20,
          .round 30 1]⟩] := by
  have hstart : Reachable (H := .exact) (.stable _) twoPrequal _ :=
    ⟨0, _, rfl, .refl⟩
  have hspawn := hstart.step (.spawn _ 0 (by decide))
  have htrigger := hspawn.step (.select _ 0 ⟨0, .spawned⟩ _ _ _ _ rfl rfl
    (.trigger _ _ twoPrequal.args.config [0, 1] rfl (by decide) rfl
      (by decide)))
  have hload := htrigger.step (.probe _ 0 _ _ _ rfl rfl (.load _ rfl))
  have hanswer := hload.step (.probe _ 0 _ _ _ rfl rfl
    (.answer _ _ 0 5 ⟨0, 0, 0⟩ rfl rfl))
  have hpool := hanswer.step (.deliver _ 0 _ _ _ _ _ _ 10 rfl rfl rfl rfl rfl)
  have hload' := hpool.step (.probe _ 1 _ _ _ rfl rfl (.load _ rfl))
  have hanswer' := hload'.step (.probe _ 1 _ _ _ rfl rfl
    (.answer _ _ 0 15 ⟨0, 0, 0⟩ rfl rfl))
  have hpool' := hanswer'.step
    (.deliver _ 1 _ _ _ _ _ _ 20 rfl rfl rfl rfl rfl)
  have hround := hpool'.step (.select _ 0 ⟨0, .triggered⟩ _ _ _ _ rfl rfl
    (.round _ _ _ _ 30 1 0 rfl (by decide)
      (Prod.ext (by decide +kernel) rfl)))
  have haccept := hround.step (.accept _ 0 ⟨0, _⟩ _ _ 40 rfl rfl rfl rfl)
  exact ⟨_, haccept, rfl, rfl, _, rfl⟩

/--
The probes that selections fire are a fixed multiple of the queries.  A query
fires its probes in its first step, as many as its policy asks for and to
distinct replicas, and never another one, whatever becomes of the probes and of
the query.  (A weight refresher asks every replica in turn, queries or not.)
-/
theorem probes_fan_out (h : Reachable sort dep s) :
    s.exchanges.length = dep.args.fanOut *
        s.queries.countP (fun query => query.phase ≠ .spawned) ∧
      dep.args.fanOut ≤ dep.args.n ∧
      ∀ (q : Nat) (query : Query), s.queries[q]? = some query →
        (s.targets q).Nodup ∧ (∀ r ∈ s.targets q, r < dep.args.n) ∧
        (s.targets q).length =
          if query.phase = .spawned then 0 else dep.args.fanOut := by
  obtain ⟨-, -, htotal, hfired⟩ := h.fannedOut
  refine ⟨htotal, RunArgs.fanOut_le h.wired.enough, ?_⟩
  intro q query hquery
  obtain ⟨hnodup, hlength⟩ := hfired q query hquery
  refine ⟨hnodup, ?_, hlength⟩
  intro r hr
  obtain ⟨x, hx, htarget⟩ := List.mem_filterMap.mp hr
  split at htarget
  · exact Option.some.inj htarget ▸ (h.wired.exchanges x hx).1
  · cases htarget

theorem twoPrequal_fan_out : ∃ s : Cluster Histogram.exact,
    s.exchanges.length = 2 ∧ (s.targets 0).Nodup := by
  obtain ⟨s, hreach, hqueries, hexchanges, -⟩ := twoPrequal_probes
  have hget : s.queries[0]? =
      some ⟨0, .sent ⟨0, some 2, some 0, .waiting⟩⟩ := by
    rw [hqueries]
    rfl
  have hfan := (probes_fan_out hreach).2.2 0 _ hget
  exact ⟨s, by simp [hexchanges], hfan.1⟩

end Cluster

end Prequal
