import Prequal.Cluster.Staleness

/-!
# What pooled latencies are worth

A latency passes through an estimate on the replica, a message and a rescaling
in the pool of a client before it decides anything.  If the queries of each
replica take between two bounds for each query in flight, so does what is left
of it at the end.
-/

namespace Prequal

open Foundation

theorem Probe.adjusted_within {p : Probe} {lo hi : Nat}
    (hhi : p.latencyUs ≤ hi * (p.rifAtProbe + 1))
    (hfits : p.latencyUs * (p.rif + 1) < 2 ^ 64) :
    p.adjustedLatency ≤ hi * (p.rif + 1) ∧
      (lo * (p.rifAtProbe + 1) ≤ p.latencyUs →
        lo * (p.rif + 1) ≤ p.adjustedLatency) := by
  rw [adjustedLatency, wrapU64_of_lt hfits]
  have hzero : 0 * (p.rifAtProbe + 1) ≤ p.latencyUs := by simp
  exact ⟨(LatencyRing.rescale_within hzero hhi p.rif).2,
    fun hlo => (LatencyRing.rescale_within hlo hhi p.rif).1⟩

namespace Cluster

variable {H : Histogram} {sort : SortByKey RingEntry} {dep : Deployment}
  {s : Cluster H}

/-- Every completed query took its share of the replica it ran on. -/
def Shares (lo hi : Nat → Nat) (s : Cluster H) : Prop :=
  ∀ (r : Nat) (st : ReplicaState), s.replicas[r]? = some st →
    LatencyRing.SharesWithin (lo r) (hi r) (st.samples.map Prod.snd)

theorem Served.arrivals_le (h : s.Served) {r : Nat} {st : ReplicaState}
    (hst : s.replicas[r]? = some st) :
    st.handlers.length ≤ s.queries.length := by
  have hcount := h.countP_acceptedSince hst 0
  rw [Nat.sub_zero] at hcount
  rw [← hcount]
  exact List.countP_le_length

theorem Reading.latency {lo hi : Nat → Nat} (hshares : s.Shares lo hi)
    {i id : Nat} {b : Balancer} {p : Probe} {x : Exchange}
    {seen st : ReplicaState} {resp : ProbeResponse} {receivedAt : Instant}
    (h : s.Reading sort i id p.replica x seen st resp receivedAt)
    (hreach : Reachable sort dep s) (hfew : s.queries.length < 2 ^ 32)
    (hroom : hi p.replica * (s.queries.length + 1) *
      (s.queries.length + 1) < 2 ^ 64)
    (hb : s.balancers[i]? = some b)
    (horigin : p.origin = (Probe.fresh p.replica resp receivedAt).origin)
    (hp : (id, p) ∈
      (Ledger.run dep.args.config dep.args.n b.events).entries) :
    p.adjustedLatency ≤ hi p.replica * (p.rif + 1) ∧
      (lo p.replica * (p.rif + 1) ≤ p.adjustedLatency ∨
        seen.samples = [] ∧ p.latencyUs = 0) := by
  have hcompensated :
      (Ledger.run dep.args.config dep.args.n b.events).Compensated :=
    Ledger.run_compensated dep.args.config_rRemove
      (hreach.noOverflow hfew b (List.mem_of_getElem? hb))
  have hrif : p.rif ≤ s.queries.length :=
    (h.rif_le horigin hreach hb hcompensated hp).trans List.countP_le_length
  have harrivals := hreach.served.arrivals_le h.serving
  obtain ⟨a, ha, -⟩ := hreach.wired.reachable _ _ h.serving
  have htruthful := hreach.truthful x h.fired a st (h.replica ▸ ha)
    (h.replica ▸ h.serving)
  rw [Exchange.Truthful, h.stored] at htruthful
  obtain ⟨hhigh, hlow⟩ := h.read.latency htruthful.1
    (hshares _ _ h.serving) harrivals hroom
  have hlatency : p.latencyUs = resp.latencyUs :=
    congrArg Origin.latencyUs horigin
  have hreported : p.rifAtProbe = resp.rif :=
    congrArg Origin.rifAtProbe horigin
  rw [← hlatency, ← hreported] at hhigh hlow
  have hreading : p.rifAtProbe ≤ s.queries.length := by
    rw [hreported, h.counted]
    have hseen : seen.live ≤ seen.handlers.length := List.countP_le_length
    exact (wrapU32_le _).trans
      (hseen.trans (h.read.later.arrivals.trans harrivals))
  have hfits : p.latencyUs * (p.rif + 1) < 2 ^ 64 := by
    refine lt_of_le_of_lt (Nat.mul_le_mul ?_ (Nat.succ_le_succ hrif)) hroom
    exact hhigh.trans (Nat.mul_le_mul_left _ (Nat.succ_le_succ hreading))
  obtain ⟨hupper, hlower⟩ := Probe.adjusted_within hhigh hfits
  exact ⟨hupper, hlow.imp_left hlower⟩

end Cluster

end Prequal
