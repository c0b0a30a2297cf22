import Prequal.Client.Compensation
import Prequal.Cluster.Provenance

/-!
# How stale a pooled probe is

The RIF of a pooled probe is the reading plus the own dispatches since.  What
it misses of the true RIF is the queries that others have sent meanwhile, and
what it has too much is the handlers that have ended meanwhile and the own
queries that are still on their way.
-/

namespace Prequal

open Foundation Relation

namespace Query

/-- Dispatched to `r` by balancer `i` after its event `id`. -/
def ownSince (i id r : Nat) (query : Query) : Bool :=
  query.balancer = i ∧ query.round.any fun round =>
    id < round.1 ∧ round.2 = some r

/-- Accepted by a handler of `r` with number `m` at least. -/
def acceptedSince (r m : Nat) (query : Query) : Bool :=
  query.accepted.any fun key => key.1 = r ∧ m ≤ key.2

theorem ownSince_iff {i id r : Nat} {query : Query} :
    query.ownSince i id r = true ↔ query.balancer = i ∧
      ∃ k, id < k ∧ query.round = some (k, some r) := by
  unfold ownSince
  cases query.round with
  | none => simp
  | some round =>
      obtain ⟨k, choice⟩ := round
      simp only [Option.any_some, decide_eq_true_eq, Option.some.injEq,
        Prod.mk.injEq, ← exists_and_left]
      constructor
      · rintro ⟨hi, hlt, rfl⟩
        exact ⟨k, hi, hlt, rfl, rfl⟩
      · rintro ⟨k, hi, hlt, rfl, rfl⟩
        exact ⟨hi, hlt, rfl⟩

theorem acceptedSince_iff {r m : Nat} {query : Query} :
    query.acceptedSince r m = true ↔
      ∃ j, query.accepted = some (r, j) ∧ m ≤ j := by
  unfold acceptedSince
  cases query.accepted with
  | none => simp
  | some key =>
      obtain ⟨r', j⟩ := key
      simp only [Option.any_some, decide_eq_true_eq, Option.some.injEq,
        Prod.mk.injEq]
      constructor
      · rintro ⟨rfl, hle⟩
        exact ⟨j, ⟨rfl, rfl⟩, hle⟩
      · rintro ⟨j, ⟨rfl, rfl⟩, hle⟩
        exact ⟨rfl, hle⟩

theorem accepted_of_round {query : Query} {k r : Nat}
    (h : query.round = some (k, some r)) {key : Nat × Nat}
    (haccepted : query.accepted = some key) : key.1 = r := by
  obtain ⟨d, hd, hkey⟩ := Option.bind_eq_some_iff.mp haccepted
  obtain ⟨j, -, rfl⟩ := Option.map_eq_some_iff.mp hkey
  rw [round_of_sent (dispatch_eq_some.mp hd), Option.map_eq_some_iff] at h
  obtain ⟨k', -, heq⟩ := h
  exact Option.some.inj (Prod.mk.inj heq).2

end Query

theorem UsesCovered.uses_le {probes : List Probe} {p : Probe}
    (h : UsesCovered probes) (hp : p ∈ probes) : p.uses ≤ p.gain := by
  refine le_trans ?_ (h.covered p hp)
  apply List.single_le_sum (fun _ _ => Nat.zero_le _)
  exact List.mem_map_of_mem
    (List.mem_filter.mpr ⟨hp, by simp [Probe.Behind]⟩)

theorem Ledger.isRound_of_dispatched {cfg : PrequalConfig} {n : Nat}
    {events : List PoolEvent} {record : Record} {r : Nat}
    (hmem : record ∈ (run cfg n events).log)
    (hr : record.dispatched = some r) : record.event.isRound = true := by
  induction events using List.reverseRecOn with
  | nil => cases hmem
  | append_singleton past e ih =>
      rw [log_concat, List.mem_append, List.mem_singleton] at hmem
      rcases hmem with hold | rfl
      · exact ih hold
      · cases e with
        | insert replica resp receivedAt => cases hr
        | round now random => rfl

namespace Cluster

variable {H : Histogram} {sort : SortByKey RingEntry} {dep : Deployment}
  {s s' : Cluster H}

/-! ## Own dispatches -/

theorem Logged.countP_ownSince {args : RunArgs} (h : s.Logged args)
    {i : Nat} {b : Balancer} (hb : s.balancers[i]? = some b) (id r : Nat) :
    s.queries.countP (Query.ownSince i id r) =
      (Ledger.run args.config args.n b.events).dispatchesSince id r := by
  set l := Ledger.run args.config args.n b.events with hl
  set dispatches := numbers (fun record : Record =>
    decide (record.dispatched = some r)) (l.log.drop (id + 1))
    with hdispatches
  set keys := dispatches.image fun m => (i, id + 1 + m) with hkeys
  have hinj : Function.Injective fun m : Nat => (i, id + 1 + m) :=
    fun a b hab => Nat.add_left_cancel (Prod.mk.inj hab).2
  have hcard : keys.card = l.dispatchesSince id r := by
    rw [hkeys, Finset.card_image_of_injective _ hinj, hdispatches,
      card_numbers]
    rfl
  have hmem : ∀ k, (i, k) ∈ keys ↔ id < k ∧ ∃ record,
      l.log[k]? = some record ∧ record.dispatched = some r := by
    intro k
    simp only [hkeys, hdispatches, Finset.mem_image, mem_numbers,
      List.getElem?_drop, decide_eq_true_eq, Prod.mk.injEq, true_and]
    constructor
    · rintro ⟨m, hm, rfl⟩
      exact ⟨by omega, hm⟩
    · rintro ⟨hlt, hrecord⟩
      have hk : id + 1 + (k - (id + 1)) = k := by omega
      exact ⟨k - (id + 1), by rwa [hk], hk⟩
  rw [← hcard]
  refine h.rounds.countP_eq_card ?_ ?_
  · intro key hkey
    obtain ⟨m, -, rfl⟩ := Finset.mem_image.mp hkey
    obtain ⟨-, record, hrecord, hr⟩ := (hmem _).mp hkey
    exact ⟨record, ⟨b, hb, hrecord⟩,
      Ledger.isRound_of_dispatched (List.mem_of_getElem? hrecord) hr⟩
  · intro query hquery
    rw [Query.ownSince_iff]
    constructor
    · rintro ⟨hbalancer, k, hlt, hround⟩
      obtain ⟨record, hrecord, hr⟩ := h.decided query hquery _ _ hround
      rw [hbalancer, recorded_iff hb] at hrecord
      refine ⟨(i, k), (hmem k).mpr ⟨hlt, record, hrecord, hr⟩, ?_⟩
      rw [Query.event, hround, hbalancer]
      rfl
    · rintro ⟨key, hkey, hevent⟩
      obtain ⟨⟨k, choice⟩, hround, rfl⟩ := Option.map_eq_some_iff.mp hevent
      have hbalancer : query.balancer = i := by
        obtain ⟨m, -, heq⟩ := Finset.mem_image.mp hkey
        exact (Prod.mk.inj heq).1.symm
      rw [hbalancer] at hkey
      obtain ⟨hlt, record, hrecord, hr⟩ := (hmem k).mp hkey
      obtain ⟨record', hrecord', hchoice⟩ := h.decided query hquery _ _ hround
      rw [hbalancer, recorded_iff hb] at hrecord'
      rw [hrecord, Option.some.injEq] at hrecord'
      refine ⟨hbalancer, k, hlt, ?_⟩
      rw [hround, ← hchoice, ← hrecord', hr]

theorem Served.countP_acceptedSince (h : s.Served) {r : Nat}
    {st : ReplicaState} (hst : s.replicas[r]? = some st) (m : Nat) :
    s.queries.countP (Query.acceptedSince r m) =
      st.handlers.length - m := by
  set keys := (Finset.Ico m st.handlers.length).image fun j => (r, j)
    with hkeys
  have hcard : keys.card = st.handlers.length - m := by
    rw [hkeys, Finset.card_image_of_injective _ (Prod.mk_right_injective r),
      Nat.card_Ico]
  rw [← hcard]
  refine h.issued.countP_eq_card ?_ ?_
  · intro key hkey
    obtain ⟨j, hj, rfl⟩ := Finset.mem_image.mp hkey
    exact ⟨st, hst, (Finset.mem_Ico.mp hj).2⟩
  · intro query hquery
    rw [Query.acceptedSince_iff]
    constructor
    · rintro ⟨j, haccepted, hle⟩
      obtain ⟨q, hq⟩ := List.mem_iff_getElem?.mp hquery
      obtain ⟨st', hst', hlt⟩ := h.issued.mem hq haccepted
      rw [hst, Option.some.injEq] at hst'
      subst hst'
      exact ⟨(r, j), Finset.mem_image.mpr
        ⟨j, Finset.mem_Ico.mpr ⟨hle, hlt⟩, rfl⟩, haccepted⟩
    · rintro ⟨key, hkey, haccepted⟩
      obtain ⟨j, hj, rfl⟩ := Finset.mem_image.mp hkey
      exact ⟨j, haccepted, (Finset.mem_Ico.mp hj).1⟩

/-! ## Readings and later dispatches -/

/--
A query dispatched after a reply was pooled is not among the handlers that the
reply has counted.
-/
def Ordered (s : Cluster H) : Prop :=
  ∀ x ∈ s.exchanges, ∀ seen resp receivedAt j,
    x.phase = .pooled seen resp receivedAt j →
      ∀ query ∈ s.queries, query.balancer = x.balancer →
        ∀ k choice, query.round = some (k, choice) → j < k →
          ∀ i, query.accepted = some (x.replica, i) →
            seen.handlers.length ≤ i

private theorem Ordered.set_query (h : s.Ordered) {q : Nat}
    {query query' : Query} (hquery : s.queries[q]? = some query)
    (hqueries : s'.queries = s.queries.set q query')
    (hexchanges : s'.exchanges = s.exchanges)
    (hbalancer : query'.balancer = query.balancer)
    (hround : query'.round = query.round)
    (haccepted : query'.accepted = query.accepted) : s'.Ordered := by
  rw [Ordered, hqueries, hexchanges]
  intro x hx seen resp receivedAt j hpooled
  refine forall_mem_set (h x hx seen resp receivedAt j hpooled) ?_
  rw [hbalancer, hround, haccepted]
  exact h x hx seen resp receivedAt j hpooled query
    (List.mem_of_getElem? hquery)

theorem Ordered.step (h : s.Ordered) (hwired : s.Wired dep)
    (htruthful : s.Truthful sort dep) (hlogged : s.Logged dep.args)
    (hstep : Step sort dep.args s s') : s'.Ordered := by
  cases hstep with
  | spawn b hb =>
      intro x hx seen resp receivedAt j hphase query hquery
      rcases List.mem_append.mp hquery with hold | hnew
      · exact h x hx seen resp receivedAt j hphase query hold
      · rw [List.mem_singleton.mp hnew]
        intro _ k choice hround
        cases hround
  | select q query b b' phase fired hquery hb hselects =>
      intro x hx seen resp receivedAt j hphase
      rcases List.mem_append.mp hx with hold | hnew
      · refine forall_mem_set (h x hold seen resp receivedAt j hphase) ?_
        -- The query has not been posted yet.
        intro _ k choice _ _ i haccepted
        obtain ⟨d, hd, hkey⟩ := Option.bind_eq_some_iff.mp haccepted
        rw [(hselects.fresh (Query.dispatch_eq_some.mp hd)).1] at hkey
        cases hkey
      · rw [(hselects.fired_wired x hnew).2.2.2] at hphase
        cases hphase
  | probe e x st phase hx hst hprobes =>
      refine forall_mem_set h ?_
      intro seen resp receivedAt j hphase
      have hnone := hprobes.unstored.2
      rw [Exchange.event, hphase] at hnone
      cases hnone
  | deliver e x b pool cfg seen resp receivedAt hx hsync hphase hb hpolicy =>
      refine forall_mem_set h ?_
      intro seen' resp' receivedAt' j hphase' query hquery hbalancer k choice
        hround hlt
      -- Every round so far came before this insertion.
      obtain ⟨record, hrecord, -⟩ :=
        hlogged.decided query hquery k choice hround
      rw [hbalancer] at hrecord
      have hbefore := hrecord.lt hb
      cases hphase'
      omega
  | accept q query d st now hquery hphase hhandler hst =>
      intro x hx seen resp receivedAt j hpooled
      refine forall_mem_set (h x hx seen resp receivedAt j hpooled) ?_
      intro _ k choice _ _ i haccepted
      rw [Query.accepted_of_sent rfl, Option.map_some, Option.some.injEq,
        Prod.mk.injEq] at haccepted
      obtain ⟨hreplica, rfl⟩ := haccepted
      rw [hreplica] at hst
      obtain ⟨a, ha, -⟩ := hwired.reachable _ _ hst
      have hread := htruthful x hx a st ha hst
      rw [Exchange.Truthful, hpooled] at hread
      exact hread.2.later.arrivals
  | serve r st st' hst hserve hclosed => exact h
  | succeed q i query d st handler latencyUs hquery hphase hwaiting hhandler
      hst hget hcompleted =>
      refine h.set_query hquery rfl rfl rfl ?_ ?_
      · rw [Query.round_of_sent hphase, Query.round_of_sent rfl]
      · rw [Query.accepted_of_sent hphase, Query.accepted_of_sent rfl]
  | fail q query d hquery hphase hwaiting =>
      refine h.set_query hquery rfl rfl rfl ?_ ?_
      · rw [Query.round_of_sent hphase, Query.round_of_sent rfl]
      · rw [Query.accepted_of_sent hphase, Query.accepted_of_sent rfl]
  | refresh i b weights weights' fetched hb hpolicy hrefresh => exact h

theorem Reachable.ordered (h : Reachable sort dep s) : s.Ordered := by
  refine h.invariant ?_ fun s s' hreach hs hstep =>
    hs.step hreach.wired hreach.truthful hreach.logged hstep
  intro now s₀ hs₀
  obtain ⟨balancers, -, rfl⟩ := start_ok hs₀
  simp [Ordered]

section Reading

variable {i id r : Nat} {b : Balancer} {p : Probe} {x : Exchange}
  {seen st : ReplicaState} {resp : ProbeResponse} {receivedAt : Instant}

theorem Reading.accepted_of_ownSince
    (h : s.Reading sort i id r x seen st resp receivedAt)
    (hordered : s.Ordered) {query : Query} (hquery : query ∈ s.queries)
    (hown : query.ownSince i id r = true) {key : Nat × Nat}
    (haccepted : query.accepted = some key) :
    query.acceptedSince r seen.handlers.length = true := by
  obtain ⟨hbalancer, k, hlt, hround⟩ := Query.ownSince_iff.mp hown
  have hreplica := Query.accepted_of_round hround haccepted
  obtain ⟨r', j⟩ := key
  subst hreplica
  rw [Query.acceptedSince_iff]
  refine ⟨j, haccepted, ?_⟩
  refine hordered x h.fired seen resp receivedAt id h.stored query hquery
    (hbalancer.trans h.balancer.symm) k _ hround hlt j ?_
  rw [haccepted, h.replica]

theorem Reading.rif_le
    (h : s.Reading sort i id p.replica x seen st resp receivedAt)
    (horigin : p.origin = (Probe.fresh p.replica resp receivedAt).origin)
    (hreach : Reachable sort dep s) (hb : s.balancers[i]? = some b)
    (hcompensated :
      (Ledger.run dep.args.config dep.args.n b.events).Compensated)
    (hp : (id, p) ∈
      (Ledger.run dep.args.config dep.args.n b.events).entries) :
    p.rif ≤ s.queries.countP fun query => query.dispatch.isSome := by
  have hexact := hcompensated.exact _ hp
  rw [← hreach.logged.countP_ownSince hb] at hexact
  have hreading : p.rifAtProbe ≤ s.queries.countP fun query =>
      query.acceptedSince p.replica 0 &&
        !query.acceptedSince p.replica seen.handlers.length := by
    have hsplit := countP_split (Query.acceptedSince p.replica 0)
      (Query.acceptedSince p.replica seen.handlers.length) s.queries
    have hboth : s.queries.countP (fun query =>
        query.acceptedSince p.replica 0 &&
          query.acceptedSince p.replica seen.handlers.length) =
        s.queries.countP
          (Query.acceptedSince p.replica seen.handlers.length) := by
      refine List.countP_congr fun query _ => ?_
      rw [Bool.and_eq_true, Query.acceptedSince_iff, Query.acceptedSince_iff]
      constructor
      · exact And.right
      · rintro ⟨j, haccepted, hle⟩
        exact ⟨⟨j, haccepted, Nat.zero_le j⟩, j, haccepted, hle⟩
    rw [hboth, hreach.served.countP_acceptedSince h.serving,
      hreach.served.countP_acceptedSince h.serving] at hsplit
    have hlive := seen.live_add_ended
    have hlater := h.read.later.arrivals
    have hwrap := wrapU32_le seen.live
    have hreported : p.rifAtProbe = resp.rif :=
      congrArg Origin.rifAtProbe horigin
    rw [hreported, h.counted]
    omega
  rw [hexact]
  refine (Nat.add_le_add_right hreading _).trans (countP_add_le ?_ ?_)
  · intro query _ haccepted
    rw [Bool.and_eq_true, Query.acceptedSince_iff] at haccepted
    obtain ⟨⟨j, hsome, -⟩, -⟩ := haccepted
    obtain ⟨d, hd, -⟩ := Option.bind_eq_some_iff.mp hsome
    rw [hd]
    rfl
  · intro query hquery hown
    obtain ⟨-, k, -, hround⟩ := Query.ownSince_iff.mp hown
    constructor
    · cases hphase : query.phase with
      | sent d => rw [Query.dispatch_of_sent hphase]; rfl
      | _ =>
        rw [Query.round, hphase] at hround
        cases hround
    · intro hboth
      rw [Bool.and_eq_true, Query.acceptedSince_iff] at hboth
      obtain ⟨⟨j, hsome, -⟩, hnot⟩ := hboth
      rw [h.accepted_of_ownSince hreach.ordered hquery hown hsome] at hnot
      cases hnot

end Reading

/-! ## No counter of a pool overflows -/

private theorem fits_round (h : Reachable sort dep s) {i : Nat}
    {b : Balancer} (hb : s.balancers[i]? = some b)
    (hfits : NoOverflow dep.args.config
      (dep.args.config.newPool dep.args.n) b.events)
    (hfew : (s.queries.countP fun query => query.dispatch.isSome) + 1 <
      2 ^ 32) (now : Instant) (random : Nat) :
    (PoolEvent.round now random).Fits
      (dep.args.config.poolAfter dep.args.n b.events) := by
  set l := Ledger.run dep.args.config dep.args.n b.events with hl
  have hpool : l.pool = dep.args.config.poolAfter dep.args.n b.events :=
    Ledger.pool_run _ _ _
  have hcompensated : l.Compensated :=
    Ledger.run_compensated dep.args.config_rRemove hfits
  have hrif : ∀ p ∈ l.pool.probes, p.rif + 1 < 2 ^ 32 := by
    intro p hp
    rw [← l.entries_map_snd] at hp
    obtain ⟨⟨id, p⟩, hentry, rfl⟩ := List.mem_map.mp hp
    obtain ⟨x, seen, st, resp, receivedAt, hreading, horigin⟩ :=
      h.entry_reading hb hentry
    have hle := hreading.rif_le horigin h hb hcompensated hentry
    dsimp only
    omega
  rw [← hpool]
  intro c hc
  have hlive : (l.pool.expire now).probes ⊆ l.pool.probes :=
    List.filter_sublist.subset
  have hwinner : c ∈ l.pool.probes := by
    rw [ProbePool.roundWinner] at hc
    split at hc
    · exact hlive (List.mem_of_getElem? hc)
    · cases hc
  refine ⟨?_, fun p hp _ => hrif p (hlive hp)⟩
  have huses := hcompensated.uses.uses_le hwinner
  have hgain : c.gain ≤ c.rif := Nat.sub_le _ _
  have hwon := hrif c hwinner
  omega

theorem Reachable.noOverflow (h : Reachable sort dep s)
    (hfew : s.queries.length < 2 ^ 32) : ∀ b ∈ s.balancers,
      NoOverflow dep.args.config (dep.args.config.newPool dep.args.n)
        b.events := by
  revert hfew
  refine h.invariant (I := fun s => s.queries.length < 2 ^ 32 →
    ∀ b ∈ s.balancers, NoOverflow dep.args.config
      (dep.args.config.newPool dep.args.n) b.events) ?_ ?_
  · intro now s₀ hs₀ _ b hb
    obtain ⟨balancers, hbalancers, rfl⟩ := start_ok hs₀
    obtain ⟨-, b', hnew, rfl⟩ := RunArgs.startBalancers_ok hbalancers
    rw [List.eq_of_mem_replicate hb, Balancer.new_events hnew]
    trivial
  · intro s s' hreach hold hstep hfew
    cases hstep with
    | spawn b hb =>
        refine hold (lt_trans ?_ hfew)
        simp
    | select q query b b' phase fired hquery hb hselects =>
        rw [List.length_set] at hfew
        have hmem := List.mem_of_getElem? hb
        refine forall_mem_set (hold hfew) ?_
        obtain ⟨-, ⟨hevents, -⟩ | ⟨now, random, hevents, -⟩⟩ :=
          hselects.logs (hreach.wired.valid b hmem)
        · rw [hevents]
          exact hold hfew b hmem
        · rw [hevents, noOverflow_concat]
          refine ⟨hold hfew b hmem, ?_⟩
          refine fits_round hreach hb (hold hfew b hmem) ?_ now random
          have hunsent : query.dispatch = none :=
            Query.dispatch_of_unsent hselects.unsent
          have hlt : s.queries.countP (fun query => query.dispatch.isSome) <
              s.queries.length := by
            rw [List.countP_lt_length_iff]
            exact ⟨query, List.mem_of_getElem? hquery, by rw [hunsent]; rfl⟩
          omega
    | deliver e x b pool cfg seen resp receivedAt hx hsync hphase hb hpolicy =>
        have hmem := List.mem_of_getElem? hb
        refine forall_mem_set (hold hfew) ?_
        exact noOverflow_concat.mpr ⟨hold hfew b hmem, trivial⟩
    | refresh i b weights weights' fetched hb hpolicy hrefresh =>
        exact forall_mem_set (hold hfew)
          (hold hfew b (List.mem_of_getElem? hb))
    | accept q query d st now hquery hphase hhandler hst =>
        rw [List.length_set] at hfew
        exact hold hfew
    | succeed q i query d st handler latencyUs hquery hphase hwaiting hhandler
        hst hget hcompleted =>
        rw [List.length_set] at hfew
        exact hold hfew
    | fail q query d hquery hphase hwaiting =>
        rw [List.length_set] at hfew
        exact hold hfew
    | probe e x st phase hx hst hprobes => exact hold hfew
    | serve r st st' hst hserve hclosed => exact hold hfew

/-! ## The estimate and the truth -/

/--
What separates the RIF of a pooled probe from that of its replica, exactly and
in every reachable state: the estimate misses the queries that the replica has
accepted since the reading other than by a later dispatch of this balancer, and
it still counts the handlers that have ended since the reading and the later
dispatches of this balancer that are not accepted.  No counter has wrapped.
-/
theorem pooled_rif_exact (h : Reachable sort dep s)
    (hfew : s.queries.length < 2 ^ 32) {i : Nat} {b : Balancer}
    (hb : s.balancers[i]? = some b) :
    NoOverflow dep.args.config (dep.args.config.newPool dep.args.n)
        b.events ∧
      ∀ (id : Nat) (p : Probe), (id, p) ∈
          (Ledger.run dep.args.config dep.args.n b.events).entries →
        ∃ x seen st resp receivedAt,
          s.Reading sort i id p.replica x seen st resp receivedAt ∧
          seen.ended ≤ st.ended ∧
          p.rif + s.queries.countP (fun query =>
              query.acceptedSince p.replica seen.handlers.length &&
                !query.ownSince i id p.replica) + seen.ended =
            st.rif + s.queries.countP (fun query =>
              query.ownSince i id p.replica && !query.accepted.isSome) +
              st.ended := by
  have hfits := h.noOverflow hfew b (List.mem_of_getElem? hb)
  refine ⟨hfits, fun id p hp => ?_⟩
  obtain ⟨x, seen, st, resp, receivedAt, hreading, horigin⟩ :=
    h.entry_reading hb hp
  refine ⟨x, seen, st, resp, receivedAt, hreading,
    hreading.read.later.ended, ?_⟩
  have hreported : p.rifAtProbe = resp.rif :=
    congrArg Origin.rifAtProbe horigin
  have hcompensated :
      (Ledger.run dep.args.config dep.args.n b.events).Compensated :=
    Ledger.run_compensated dep.args.config_rRemove hfits
  have hexact : p.rif = p.rifAtProbe +
      (Ledger.run dep.args.config dep.args.n b.events).dispatchesSince id
        p.replica := hcompensated.exact _ hp
  rw [← h.logged.countP_ownSince hb, hreported, hreading.counted] at hexact
  -- Both counts split by whether the query is the other kind as well.
  have hown := countP_split (Query.ownSince i id p.replica)
    (fun query => query.accepted.isSome) s.queries
  have haccepted := countP_split
    (Query.acceptedSince p.replica seen.handlers.length)
    (Query.ownSince i id p.replica) s.queries
  have hboth : s.queries.countP (fun query =>
        query.ownSince i id p.replica && query.accepted.isSome) =
      s.queries.countP (fun query =>
        query.acceptedSince p.replica seen.handlers.length &&
          query.ownSince i id p.replica) := by
    refine List.countP_congr fun query hquery => ?_
    rw [Bool.and_eq_true, Bool.and_eq_true]
    constructor
    · rintro ⟨hown, hsome⟩
      obtain ⟨key, hkey⟩ := Option.isSome_iff_exists.mp hsome
      exact ⟨hreading.accepted_of_ownSince h.ordered hquery hown hkey, hown⟩
    · rintro ⟨haccepted, hown⟩
      obtain ⟨j, hsome, -⟩ := Query.acceptedSince_iff.mp haccepted
      exact ⟨hown, by rw [hsome]; rfl⟩
  have hnew := h.served.countP_acceptedSince hreading.serving
    seen.handlers.length
  have hall := h.served.countP_acceptedSince hreading.serving 0
  have htotal : s.queries.countP (Query.acceptedSince p.replica 0) ≤
      s.queries.length := List.countP_le_length
  have hlater := hreading.read.later.arrivals
  have hseen := seen.live_add_ended
  have hst := st.live_add_ended
  obtain ⟨a, -, hreach⟩ := h.wired.reachable _ _ hreading.serving
  have hrif : st.rif = wrapU32 st.live := hreach.accounted.counted
  rw [wrapU32_of_lt (by omega)] at hexact hrif
  omega

/--
Both probes of the first replica are read before it accepts the first query;
the second query is then sent there and has not arrived.
-/
theorem twoPrequal_misses : ∃ s : Cluster Histogram.exact,
    Reachable (.stable _) twoPrequal s ∧
      s.queries = [⟨0, .sent ⟨0, some 0, some 0, .waiting⟩⟩,
        ⟨0, .sent (.to 0 (some 3))⟩] ∧
      s.exchanges =
        [⟨0, 0, 0, false, .pooled (.new oneCore.slots) ⟨0, 0, 0⟩ 40 1⟩,
          ⟨0, 0, 1, false, .requested⟩,
          ⟨1, 0, 0, false, .pooled (.new oneCore.slots) ⟨0, 0, 0⟩ 50 2⟩,
          ⟨1, 0, 1, false, .requested⟩] ∧
      s.replicas[0]? = some ((ReplicaState.new oneCore.slots).arrive 55) ∧
      ∃ pool, s.balancers = [⟨.prequal pool twoPrequal.args.config,
        [.round 30 0, .insert 0 ⟨0, 0, 0⟩ 40, .insert 0 ⟨0, 0, 0⟩ 50,
          .round 60 1]⟩] := by
  have hstart : Reachable (H := .exact) (.stable _) twoPrequal _ :=
    ⟨0, _, rfl, .refl⟩
  have hspawn := hstart.step (.spawn _ 0 (by decide))
  have htrigger := hspawn.step (.select _ 0 ⟨0, .spawned⟩ _ _ _ _ rfl rfl
    (.trigger _ _ twoPrequal.args.config [0, 1] rfl (by decide) rfl
      (by decide)))
  have hround := htrigger.step (.select _ 0 ⟨0, .triggered⟩ _ _ _ _ rfl rfl
    (.round _ _ _ _ 30 0 0 rfl (by decide)
      (Prod.ext (by decide +kernel) rfl)))
  have hload := hround.step (.probe _ 0 _ _ _ rfl rfl (.load _ rfl))
  have hanswer := hload.step (.probe _ 0 _ _ _ rfl rfl
    (.answer _ _ 0 35 ⟨0, 0, 0⟩ rfl rfl))
  have hpool := hanswer.step (.deliver _ 0 _ _ _ _ _ _ 40 rfl rfl rfl rfl rfl)
  have hspawn' := hpool.step (.spawn _ 0 (by decide))
  have htrigger' := hspawn'.step (.select _ 1 ⟨0, .spawned⟩ _ _ _ _ rfl rfl
    (.trigger _ _ twoPrequal.args.config [0, 1] rfl (by decide) rfl
      (by decide)))
  have hload' := htrigger'.step (.probe _ 2 _ _ _ rfl rfl (.load _ rfl))
  have hanswer' := hload'.step (.probe _ 2 _ _ _ rfl rfl
    (.answer _ _ 0 45 ⟨0, 0, 0⟩ rfl rfl))
  have hpool' := hanswer'.step
    (.deliver _ 2 _ _ _ _ _ _ 50 rfl rfl rfl rfl rfl)
  have haccept := hpool'.step (.accept _ 0 ⟨0, _⟩ _ _ 55 rfl rfl rfl rfl)
  have hround' := haccept.step (.select _ 1 ⟨0, .triggered⟩ _ _ _ _ rfl rfl
    (.round _ _ _ _ 60 1 0 rfl (by decide)
      (Prod.ext (by decide +kernel) rfl)))
  exact ⟨_, hround', rfl, rfl, rfl, _, rfl⟩

theorem twoPrequal_exact : ∃ s : Cluster Histogram.exact,
    s.queries = [⟨0, .sent ⟨0, some 0, some 0, .waiting⟩⟩,
        ⟨0, .sent (.to 0 (some 3))⟩] ∧
      ∃ x seen st resp receivedAt,
        s.Reading (.stable _) 0 2 0 x seen st resp receivedAt ∧
        st.rif = 1 ∧
        s.queries.countP (fun query =>
          query.acceptedSince 0 seen.handlers.length &&
            !query.ownSince 0 2 0) = 1 ∧
        s.queries.countP (fun query =>
          query.ownSince 0 2 0 && !query.accepted.isSome) = 1 ∧
        1 + 1 + seen.ended = st.rif + 1 + st.ended := by
  obtain ⟨s, hreach, hqueries, hexchanges, hreplica, pool, hbalancers⟩ :=
    twoPrequal_misses
  have hb := congrArg (fun balancers => balancers[0]?) hbalancers
  have hp : (2, (⟨0, 1, 0, 0, 50, 0⟩ : Probe)) ∈
      (Ledger.run twoPrequal.args.config 2 [.round 30 0,
        .insert 0 ⟨0, 0, 0⟩ 40, .insert 0 ⟨0, 0, 0⟩ 50,
        .round 60 1]).entries := by
    decide +kernel
  obtain ⟨x, seen, st, resp, receivedAt, hreading, -, hexact⟩ :=
    (pooled_rif_exact hreach (by rw [hqueries]; decide) hb).2 _ _ hp
  have hst := hreading.serving.symm.trans hreplica
  rw [Option.some.injEq] at hst
  have hseen : seen.handlers.length = 0 := by
    have hfired := hreading.fired
    have hstored := hreading.stored
    simp only [hexchanges, List.mem_cons, List.not_mem_nil, or_false]
      at hfired
    rcases hfired with rfl | rfl | rfl | rfl <;> cases hstored
    rfl
  have hothers : s.queries.countP (fun query =>
      query.acceptedSince 0 seen.handlers.length &&
        !query.ownSince 0 2 0) = 1 := by
    rw [hqueries, hseen]
    rfl
  have hwaiting : s.queries.countP (fun query =>
      query.ownSince 0 2 0 && !query.accepted.isSome) = 1 := by
    rw [hqueries]
    rfl
  dsimp only at hexact
  rw [hothers, hwaiting] at hexact
  exact ⟨s, hqueries, x, seen, st, resp, receivedAt, hreading,
    by rw [hst]; rfl, hothers, hwaiting, hexact⟩

end Cluster

end Prequal
