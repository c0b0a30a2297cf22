import Prequal.Client.Threshold

/-!
# The hot-cold rule

Whenever there is a threshold it is the RIF of a pooled probe, so some probe
is cold and the choice is always the first cold probe of least adjusted
latency.  The remaining theorems say what a selection writes, and that a
better report never loses a replica the query it would have won.
-/

namespace Prequal

open Foundation
open scoped List

namespace ProbePool

abbrev IsColdest (pool : ProbePool) (threshold i : Nat) (c : Probe) : Prop :=
  IsFirstMin (fun p => p.rif ≤ threshold) Probe.adjustedLatency pool.probes i c

theorem IsColdest.cold {pool : ProbePool} {t i : Nat} {c : Probe}
    (h : pool.IsColdest t i c) : c.rif ≤ t := by
  simpa using h.kept

theorem exists_cold {pool : ProbePool} {t : Nat}
    (ht : pool.hotThreshold = .ok (some t)) :
    ∃ p ∈ pool.probes, p.rif ≤ t := by
  obtain ⟨p, hp, hrif⟩ := hotThreshold_mem ht
  exact ⟨p, (mem_latestReports.mp hp).1, hrif.le⟩

theorem hclIdx_of_isColdest {pool : ProbePool} {t i : Nat} {c : Probe}
    (ht : pool.hotThreshold = .ok (some t)) (hc : pool.IsColdest t i c) :
    pool.hclIdx = .ok (some i) := by
  have hidx := firstMinIdx_eq_some_iff.mpr ⟨c, hc⟩
  simp only [hclIdx_eq, ht, hidx, Option.some_or]

/-- The branch for a pool of hot probes only is never taken. -/
theorem exists_isColdest {pool : ProbePool} {t : Nat}
    (ht : pool.hotThreshold = .ok (some t)) :
    ∃ i c, pool.IsColdest t i c ∧ pool.hclIdx = .ok (some i) := by
  cases hcold : firstMinIdx (fun p => decide (p.rif ≤ t))
      Probe.adjustedLatency pool.probes with
  | none =>
      obtain ⟨p, hp, hrif⟩ := exists_cold ht
      have := firstMinIdx_eq_none_iff.mp hcold p hp
      simp [hrif] at this
  | some i =>
      obtain ⟨c, hc⟩ := firstMinIdx_eq_some_iff.mp hcold
      exact ⟨i, c, hc, hclIdx_of_isColdest ht hc⟩

theorem hclIdx_of_nil {pool : ProbePool} (h : pool.probes = []) :
    pool.hclIdx = .ok none := by
  rw [hclIdx_eq, hotThreshold_of_nil h]

theorem exec_hclSelect_of_nil {pool : ProbePool} (h : pool.probes = []) :
    pool.exec hclSelect = (.ok none, pool) := by
  simp [hclSelect, exec_bind, hclIdx_of_nil h]

theorem exec_hclSelect_of_isColdest {pool : ProbePool} {t i : Nat} {c : Probe}
    (ht : pool.hotThreshold = .ok (some t)) (hc : pool.IsColdest t i c) :
    pool.exec hclSelect =
      (.ok (some c.replica), pool.dispatchTo i c.replica) :=
  exec_hclSelect_of_idx (hclIdx_of_isColdest ht hc) hc.get

/-! ## What a selection writes -/

/-- None of the increments of a dispatch to the probe `c` leaves a `u32`. -/
def DispatchFits (pool : ProbePool) (c : Probe) : Prop :=
  c.uses + 1 < 2 ^ 32 ∧
    ∀ p ∈ pool.probes, p.replica = c.replica → p.rif + 1 < 2 ^ 32

@[simp] theorem dispatchTo_length (pool : ProbePool) (i r : Nat) :
    (pool.dispatchTo i r).probes.length = pool.probes.length := by
  simp [dispatchTo]

theorem dispatchTo_getElem? (pool : ProbePool) (i r j : Nat) :
    (pool.dispatchTo i r).probes[j]? =
      pool.probes[j]?.map fun p =>
        Probe.compensate r (if i = j then p.use else p) := by
  simp only [dispatchTo, List.getElem?_map, List.getElem?_modify]
  cases pool.probes[j]? with
  | none => rfl
  | some p => split <;> simp_all

theorem dispatchTo_getElem?_of_fits {pool : ProbePool} {i j : Nat}
    {c p : Probe} (hc : pool.probes[i]? = some c)
    (hfits : pool.DispatchFits c) (hp : pool.probes[j]? = some p) :
    (pool.dispatchTo i c.replica).probes[j]? = some { p with
      uses := if j = i then p.uses + 1 else p.uses
      rif := if p.replica = c.replica then p.rif + 1 else p.rif } := by
  rw [dispatchTo_getElem?, hp, Option.map_some, Option.some.injEq]
  have hrif : p.replica = c.replica → wrapU32 (p.rif + 1) = p.rif + 1 :=
    fun h => wrapU32_of_lt (hfits.2 p (List.mem_of_getElem? hp) h)
  by_cases hij : i = j
  · subst hij
    obtain rfl : c = p := Option.some.inj (hc.symm.trans hp)
    simp [Probe.compensate, Probe.use, wrapU32_of_lt hfits.1, hrif]
  · by_cases hr : p.replica = c.replica
    · simp [Probe.compensate, hij, Ne.symm hij, hr, hrif hr]
    · simp [Probe.compensate, hij, Ne.symm hij, hr]

/--
Specification of the selection.  With a quantile of at most one it
returns the replica of a cold probe of least adjusted latency, charges that
probe with a use and every copy of its replica with one request in flight, and
changes nothing else.
-/
theorem hclSelect_spec (pool : ProbePool) (hq : pool.qRif ≤ 1) :
    (pool.probes = [] → pool.exec hclSelect = (.ok none, pool)) ∧
    (pool.probes ≠ [] → ∃ t i c,
      pool.hotThreshold = .ok (some t) ∧
      (∃ p ∈ pool.probes, p.rif ≤ t) ∧
      firstMinIdx (fun p => p.rif ≤ t) Probe.adjustedLatency pool.probes =
        some i ∧
      pool.probes[i]? = some c ∧ c.rif ≤ t ∧
      (∀ p ∈ pool.probes, p.rif ≤ t →
        c.adjustedLatency ≤ p.adjustedLatency) ∧
      ∃ pool', pool.exec hclSelect = (.ok (some c.replica), pool') ∧
        pool' = { pool with probes := pool'.probes } ∧
        pool'.probes.length = pool.probes.length ∧
        (pool.DispatchFits c → ∀ (j : Nat) (p : Probe),
          pool.probes[j]? = some p →
          pool'.probes[j]? = some { p with
            uses := if j = i then p.uses + 1 else p.uses
            rif := if p.replica = c.replica then p.rif + 1 else p.rif })) := by
  refine ⟨exec_hclSelect_of_nil, fun hne => ?_⟩
  obtain ⟨t, ht⟩ := hotThreshold_isSome hq hne
  obtain ⟨i, c, hc, -⟩ := exists_isColdest ht
  refine ⟨t, i, c, ht, exists_cold ht, firstMinIdx_eq_some_iff.mpr ⟨c, hc⟩,
    hc.get, hc.cold, ?_, pool.dispatchTo i c.replica,
    exec_hclSelect_of_isColdest ht hc, rfl, dispatchTo_length _ _ _, ?_⟩
  · intro p hp hcold
    exact hc.least p hp (by simpa using hcold)
  · intro hfits j p hp
    exact dispatchTo_getElem?_of_fits hc.get hfits hp

def fourReplicasPool : ProbePool :=
  { new 16 10000000000 100 (84 / 100) with
    probes :=
      [Probe.fresh 0 ⟨1, 9000, 0⟩ 1, Probe.fresh 1 ⟨2, 4000, 0⟩ 2,
       Probe.fresh 2 ⟨3, 8000, 0⟩ 3, Probe.fresh 3 ⟨10, 1000, 0⟩ 4] }

theorem fourReplicasPool_spec :
    ∃ (t : Nat) (c : Probe) (pool' : ProbePool),
      fourReplicasPool.hotThreshold = .ok (some t) ∧ c.rif ≤ t ∧
      fourReplicasPool.exec hclSelect = (.ok (some c.replica), pool') ∧
      pool'.probes.length = 4 := by
  obtain ⟨t, i, c, ht, -, -, -, hcold, -, pool', hexec, -, hlength, -⟩ :=
    (hclSelect_spec fourReplicasPool (by decide +kernel)).2 (by decide)
  exact ⟨t, c, pool', ht, hcold, hexec, hlength⟩

example : (fourReplicasPool.exec hclSelect).1 = .ok (some 1) := by
  decide +kernel

/-! ## Monotonicity in a replica's report -/

theorem latestProbes_eq_of_nodup {pool : ProbePool}
    (hone : (pool.probes.map Probe.replica).Nodup) :
    pool.latestProbes = pool.probes := by
  rw [latestProbes, latestReports, List.filter_eq_self]
  intro p hp
  rw [decide_eq_true_eq]
  intro q hq hqp
  rw [List.inj_on_of_nodup_map hone hq hp hqp]

theorem hotThreshold_eq_kth_of_nodup {pool : ProbePool} {t : Nat}
    (hone : (pool.probes.map Probe.replica).Nodup) :
    pool.hotThreshold = .ok (some t) ↔
      kthSmallest (pool.probes.map Probe.rif)
        (pool.quantileIdx pool.probes.length) = some t := by
  have hlatest := latestProbes_eq_of_nodup hone
  have hperm : pool.latestRifs ~ pool.latestProbes.map Probe.rif :=
    latestVals_perm (by rw [← latestProbes, hlatest]; exact hone)
  rw [hlatest] at hperm
  rw [hotThreshold_eq_some_iff, kthSmallest_perm hperm, hperm.length_eq,
    List.length_map]

def Chooses (pool : ProbePool) (r : Nat) : Prop :=
  (pool.exec hclSelect).1 = .ok (some r)

theorem chooses_iff {pool : ProbePool} {r : Nat} :
    pool.Chooses r ↔ ∃ t i c, pool.hotThreshold = .ok (some t) ∧
      pool.IsColdest t i c ∧ c.replica = r := by
  constructor
  · intro h
    rcases hthreshold : pool.hotThreshold with e | _ | t
    · simp [Chooses, hclSelect, exec_bind, hclIdx_eq, hthreshold] at h
    · simp [Chooses, hclSelect, exec_bind, hclIdx_eq, hthreshold] at h
    · obtain ⟨i, c, hc, -⟩ := exists_isColdest hthreshold
      refine ⟨t, i, c, rfl, hc, ?_⟩
      rw [Chooses, exec_hclSelect_of_isColdest hthreshold hc] at h
      simpa using h
  · rintro ⟨t, i, c, ht, hc, rfl⟩
    rw [Chooses, exec_hclSelect_of_isColdest ht hc]

def report (pool : ProbePool) (i : Nat) (p : Probe) : ProbePool :=
  { pool with probes := pool.probes.set i p }

theorem report_map_replica {pool : ProbePool} {i : Nat} {p p' : Probe}
    (hp : pool.probes[i]? = some p) (hreplica : p'.replica = p.replica) :
    (pool.report i p').probes.map Probe.replica =
      pool.probes.map Probe.replica := by
  have hget : (pool.probes.map Probe.replica)[i]? = some p'.replica := by
    simp [hp, hreplica]
  obtain ⟨hi, hget⟩ := List.getElem?_eq_some_iff.mp hget
  rw [report, List.map_set, ← hget, List.set_getElem_self]

theorem hotThreshold_report {pool : ProbePool} {i t : Nat} {p p' : Probe}
    (hone : (pool.probes.map Probe.replica).Nodup)
    (hp : pool.probes[i]? = some p) (hreplica : p'.replica = p.replica)
    (hrif : p'.rif ≤ p.rif) (ht : pool.hotThreshold = .ok (some t)) :
    ∃ t', (pool.report i p').hotThreshold = .ok (some t') ∧ t' ≤ t ∧
      (p.rif ≤ t → p'.rif ≤ t') := by
  have hone' : ((pool.report i p').probes.map Probe.replica).Nodup := by
    rwa [report_map_replica hp hreplica]
  have hkth := (hotThreshold_eq_kth_of_nodup hone).mp ht
  have hget : (pool.probes.map Probe.rif)[i]? = some p.rif := by simp [hp]
  have hrifs : (pool.report i p').probes.map Probe.rif =
      (pool.probes.map Probe.rif).set i p'.rif := List.map_set
  have hidx : (pool.report i p').quantileIdx
        (pool.report i p').probes.length =
      pool.quantileIdx pool.probes.length := by
    rw [report, List.length_set]
    rfl
  have hlt : pool.quantileIdx pool.probes.length <
      ((pool.probes.map Probe.rif).set i p'.rif).length := by
    by_contra hge
    rw [List.length_set, not_lt] at hge
    rw [kthSmallest_eq_none_iff.mpr hge] at hkth
    cases hkth
  obtain ⟨t', ht'⟩ := kthSmallest_isSome hlt
  refine ⟨t', ?_, kthSmallest_set_le hget hrif hkth ht', fun hpt =>
    le_kthSmallest_set hget hrif hpt hkth ht'⟩
  rw [hotThreshold_eq_kth_of_nodup hone', hrifs, hidx]
  exact ht'

private theorem chooses_report {pool : ProbePool} {i : Nat} {p p' : Probe}
    (hone : (pool.probes.map Probe.replica).Nodup)
    (hp : pool.probes[i]? = some p) (hreplica : p'.replica = p.replica)
    (hrif : p'.rif ≤ p.rif)
    (hlatency : p'.adjustedLatency ≤ p.adjustedLatency)
    (hchosen : pool.Chooses p.replica) :
    (pool.report i p').Chooses p.replica := by
  obtain ⟨t, j, c, ht, hc, hcr⟩ := chooses_iff.mp hchosen
  obtain ⟨hj, rfl⟩ := List.getElem?_eq_some_iff.mp hc.get
  obtain rfl : j = i := by
    have hget : (pool.probes.map Probe.replica)[j]? =
        (pool.probes.map Probe.replica)[i]? := by simp [hp, hc.get, hcr]
    exact (List.getElem?_inj (by simpa using hj) hone).mp hget
  obtain rfl : pool.probes[j] = p := Option.some.inj (hc.get.symm.trans hp)
  obtain ⟨t', ht', hle, hcold⟩ := hotThreshold_report hone hp hreplica hrif ht
  refine chooses_iff.mpr ⟨t', j, p', ht', ?_, hreplica⟩
  -- The cold set only shrinks, and what is left of it was slower before.
  constructor
  · simp [report, hj]
  · simpa using hcold hc.cold
  · intro y hy hycold
    have hyt : y.rif ≤ t := (of_decide_eq_true hycold).trans hle
    rcases List.mem_or_eq_of_mem_set hy with hy | rfl
    · exact hlatency.trans (hc.least y hy (by simpa using hyt))
    · exact le_rfl
  · intro k y hk hy hycold
    have hyt : y.rif ≤ t := (of_decide_eq_true hycold).trans hle
    have hy' : pool.probes[k]? = some y := by
      rw [← hy, report, List.getElem?_set_ne (by omega)]
    exact hlatency.trans_lt (hc.first k y hk hy' (by simpa using hyt))

/--
The rule is monotone in a replica's report: a chosen replica stays chosen when
its RIF and its adjusted latency do not get worse, and a replica that was not
chosen is not chosen after they got worse.
-/
theorem hclSelect_monotone (pool : ProbePool)
    (hone : (pool.probes.map Probe.replica).Nodup) (i : Nat) (p p' : Probe)
    (hp : pool.probes[i]? = some p) (hreplica : p'.replica = p.replica) :
    (p'.rif ≤ p.rif → p'.adjustedLatency ≤ p.adjustedLatency →
      (pool.exec hclSelect).1 = .ok (some p.replica) →
      ((pool.report i p').exec hclSelect).1 = .ok (some p.replica)) ∧
    (p.rif ≤ p'.rif → p.adjustedLatency ≤ p'.adjustedLatency →
      (pool.exec hclSelect).1 ≠ .ok (some p.replica) →
      ((pool.report i p').exec hclSelect).1 ≠ .ok (some p.replica)) := by
  refine ⟨chooses_report hone hp hreplica, fun hrif hlatency hnot hchosen => ?_⟩
  obtain ⟨hi, rfl⟩ := List.getElem?_eq_some_iff.mp hp
  apply hnot
  -- Undoing the change is an improvement of the changed pool.
  have hback : (pool.report i p').report i pool.probes[i] = pool := by
    simp [report]
  have hone' : ((pool.report i p').probes.map Probe.replica).Nodup := by
    rwa [report_map_replica hp hreplica]
  have hget : (pool.report i p').probes[i]? = some p' := by simp [report, hi]
  have hchosen' : (pool.report i p').Chooses p'.replica := by
    rwa [Chooses, hreplica]
  have himproved := chooses_report hone' hget hreplica.symm hrif hlatency
    hchosen'
  rwa [hback, hreplica] at himproved

theorem fourReplicasPool_monotone :
    ((fourReplicasPool.report 1 (Probe.fresh 1 ⟨1, 2000, 0⟩ 5)).exec
      hclSelect).1 = .ok (some 1) :=
  (hclSelect_monotone fourReplicasPool (by decide) 1
    (Probe.fresh 1 ⟨2, 4000, 0⟩ 2) (Probe.fresh 1 ⟨1, 2000, 0⟩ 5) rfl rfl).1
      (by decide) (by decide +kernel) (by decide +kernel)

/-! ## The endpoints of the quantile -/

theorem quantileIdx_zero {pool : ProbePool} (hq : pool.qRif = 0)
    (count : Nat) : pool.quantileIdx count = 0 := by
  simp [quantileIdx, hq]

theorem quantileIdx_one {pool : ProbePool} (hq : pool.qRif = 1)
    (count : Nat) : pool.quantileIdx count = count - 1 := by
  rw [quantileIdx, hq, one_mul, Int.floor_natCast, Int.toNat_natCast]

theorem DistinctCopies.threshold_le {pool : ProbePool} {t : Nat} {p : Probe}
    (hdistinct : pool.DistinctCopies) (hq : pool.qRif = 0)
    (ht : pool.hotThreshold = .ok (some t)) (hp : p ∈ pool.latestProbes) :
    t ≤ p.rif := by
  have hkth := hdistinct.hotThreshold_eq_kth ht
  rw [quantileIdx_zero hq] at hkth
  exact kthSmallest_zero_le hkth (List.mem_map_of_mem hp)

theorem DistinctCopies.le_threshold {pool : ProbePool} {t : Nat} {p : Probe}
    (hdistinct : pool.DistinctCopies) (hq : pool.qRif = 1)
    (ht : pool.hotThreshold = .ok (some t)) (hp : p ∈ pool.latestProbes) :
    p.rif ≤ t := by
  have hkth := hdistinct.hotThreshold_eq_kth ht
  have hlast : pool.quantileIdx pool.replicas.card =
      (pool.latestProbes.map Probe.rif).length - 1 := by
    rw [quantileIdx_one hq, List.length_map,
      length_latestProbes hdistinct.nodup_latest]
  rw [hlast] at hkth
  exact le_kthSmallest_last hkth (List.mem_map_of_mem hp)

/--
At quantile zero the rule is RIF-only control and at quantile one it is
latency-only control, against the latest probe of every pooled replica.
-/
theorem hclSelect_endpoints (pool : ProbePool) (hne : pool.probes ≠ [])
    (hdistinct : pool.DistinctCopies) (hq : pool.qRif = 0 ∨ pool.qRif = 1) :
    ∃ i c, pool.hclIdx = .ok (some i) ∧ pool.probes[i]? = some c ∧
      pool.exec hclSelect = (.ok (some c.replica),
        pool.dispatchTo i c.replica) ∧
      (pool.qRif = 0 → ∀ p ∈ pool.latestProbes, c.rif ≤ p.rif) ∧
      (pool.qRif = 1 →
        ∀ p ∈ pool.latestProbes, c.adjustedLatency ≤ p.adjustedLatency) := by
  have hq1 : pool.qRif ≤ 1 := by
    rcases hq with hq | hq
    · exact hq.trans_le zero_le_one
    · exact hq.le
  obtain ⟨t, ht⟩ := hotThreshold_isSome hq1 hne
  obtain ⟨i, c, hc, hidx⟩ := exists_isColdest ht
  refine ⟨i, c, hidx, hc.get, exec_hclSelect_of_isColdest ht hc, ?_, ?_⟩
  · intro hzero p hp
    exact hc.cold.trans (hdistinct.threshold_le hzero ht hp)
  · intro hone p hp
    -- The threshold is the greatest RIF, so every latest probe is cold.
    have hcold := hdistinct.le_threshold hone ht hp
    exact hc.least p (mem_latestReports.mp hp).1 (by simpa using hcold)

theorem staleCopyPool_endpoints :
    ∃ (i : Nat) (c : Probe), hclIdx { threeCopiesPool with qRif := 1 } =
        .ok (some i) ∧ c.adjustedLatency ≤ 2000 := by
  have hdistinct : DistinctCopies { threeCopiesPool with qRif := 1 } := by
    unfold DistinctCopies DistinctStamps
    decide
  obtain ⟨i, c, hidx, -, -, -, hlatency⟩ :=
    hclSelect_endpoints { threeCopiesPool with qRif := 1 } (by decide)
      hdistinct (.inr rfl)
  exact ⟨i, c, hidx,
    hlatency rfl (Probe.fresh 1 ⟨3, 2000, 0⟩ 2) (by decide +kernel)⟩

end ProbePool

end Prequal
