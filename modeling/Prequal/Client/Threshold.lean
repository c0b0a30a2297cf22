import Prequal.Client.Pool

/-!
# The hot threshold

The threshold is an order statistic of the latest RIF of each pooled replica.
With a quantile of at most one the index is in range, so the computation
cannot unwind, and copies that a later probe supersedes never matter.
-/

namespace Prequal

open Foundation
open scoped List

namespace ProbePool

def replicas (pool : ProbePool) : Finset Nat :=
  (pool.probes.map Probe.replica).toFinset

def latestProbes (pool : ProbePool) : List Probe :=
  latestReports Probe.replica Probe.receivedAt pool.probes

/-- No two copies of one replica were received at the same time. -/
def DistinctCopies (pool : ProbePool) : Prop :=
  DistinctStamps Probe.replica Probe.receivedAt pool.probes

/-! ## Shape of the threshold computation -/

@[simp] theorem latestRifs_eq_nil_iff {pool : ProbePool} :
    pool.latestRifs = [] ↔ pool.probes = [] :=
  latestVals_eq_nil_iff

theorem length_latestRifs (pool : ProbePool) :
    pool.latestRifs.length = pool.replicas.card :=
  length_latestVals pool.probes

theorem hotThreshold_of_nil {pool : ProbePool} (h : pool.probes = []) :
    pool.hotThreshold = .ok none := by
  have hnil : pool.latestRifs = [] := latestRifs_eq_nil_iff.mpr h
  simp [hotThreshold, hnil]

theorem hotThreshold_of_ne_nil {pool : ProbePool} (h : pool.probes ≠ []) :
    pool.hotThreshold =
      match kthSmallest pool.latestRifs
          (pool.quantileIdx pool.latestRifs.length) with
      | some rif => .ok (some rif)
      | none => .error .indexOutOfBounds := by
  have hne : ¬ pool.latestRifs.isEmpty = true := by simpa using h
  exact if_neg hne

theorem hotThreshold_eq_some_iff {pool : ProbePool} {t : Nat} :
    pool.hotThreshold = .ok (some t) ↔
      kthSmallest pool.latestRifs
        (pool.quantileIdx pool.latestRifs.length) = some t := by
  by_cases h : pool.probes = []
  · have hnil : pool.latestRifs = [] := latestRifs_eq_nil_iff.mpr h
    simp [hotThreshold_of_nil h, hnil, kthSmallest]
  · rw [hotThreshold_of_ne_nil h]
    cases kthSmallest pool.latestRifs
      (pool.quantileIdx pool.latestRifs.length) <;> simp

theorem hotThreshold_eq_none_iff {pool : ProbePool} :
    pool.hotThreshold = .ok none ↔ pool.probes = [] := by
  refine ⟨fun h => ?_, hotThreshold_of_nil⟩
  by_contra hne
  rw [hotThreshold_of_ne_nil hne] at h
  split at h <;> cases h

theorem hotThreshold_mem {pool : ProbePool} {t : Nat}
    (h : pool.hotThreshold = .ok (some t)) :
    ∃ p ∈ pool.latestProbes, p.rif = t := by
  have hmem := kthSmallest_mem (hotThreshold_eq_some_iff.mp h)
  obtain ⟨p, hp, hrif, hlatest⟩ := mem_latestVals hmem
  exact ⟨p, mem_latestReports.mpr ⟨hp, hlatest⟩, hrif⟩

theorem quantileIdx_lt {pool : ProbePool} {count : Nat}
    (hq : pool.qRif ≤ 1) (hcount : 0 < count) :
    pool.quantileIdx count < count := by
  have hnonneg : (0 : Rat) ≤ ((count - 1 : Nat) : Rat) := Nat.cast_nonneg _
  have hle : pool.qRif * ((count - 1 : Nat) : Rat) ≤
      ((count - 1 : Nat) : Rat) := mul_le_of_le_one_left hnonneg hq
  have hfloor : ⌊pool.qRif * ((count - 1 : Nat) : Rat)⌋ ≤
      ((count - 1 : Nat) : Int) := by
    have := Int.floor_le_floor hle
    rwa [Int.floor_natCast] at this
  unfold quantileIdx
  omega

theorem hotThreshold_isSome {pool : ProbePool} (hq : pool.qRif ≤ 1)
    (hne : pool.probes ≠ []) : ∃ t, pool.hotThreshold = .ok (some t) := by
  have hpos : 0 < pool.latestRifs.length :=
    List.length_pos_iff.mpr (mt latestRifs_eq_nil_iff.mp hne)
  obtain ⟨t, ht⟩ := kthSmallest_isSome (quantileIdx_lt hq hpos)
  exact ⟨t, hotThreshold_eq_some_iff.mpr ht⟩

/-! ## The threshold as a quantile across replicas -/

theorem DistinctCopies.latestRifs_perm {pool : ProbePool}
    (h : pool.DistinctCopies) :
    pool.latestRifs ~ pool.latestProbes.map Probe.rif :=
  latestVals_perm h.nodup_latest

theorem hotThreshold_congr {pool pool' : ProbePool} {t : Nat}
    (hnodup : (pool.latestProbes.map Probe.replica).Nodup)
    (hq : pool'.qRif = pool.qRif)
    (hlatest : pool'.latestProbes ~ pool.latestProbes)
    (ht : pool.hotThreshold = .ok (some t)) :
    pool'.hotThreshold = .ok (some t) := by
  have hnodup' : (pool'.latestProbes.map Probe.replica).Nodup :=
    (hlatest.map _).nodup_iff.mpr hnodup
  have hperm : pool'.latestRifs ~ pool.latestRifs :=
    (latestVals_perm hnodup').trans
      ((hlatest.map Probe.rif).trans (latestVals_perm hnodup).symm)
  rw [hotThreshold_eq_some_iff] at ht ⊢
  rw [kthSmallest_perm hperm, hperm.length_eq, quantileIdx, hq]
  exact ht

theorem length_latestProbes {pool : ProbePool}
    (hnodup : (pool.latestProbes.map Probe.replica).Nodup) :
    pool.latestProbes.length = pool.replicas.card := by
  have hperm : pool.latestRifs ~ pool.latestProbes.map Probe.rif :=
    latestVals_perm hnodup
  rw [← length_latestRifs, hperm.length_eq, List.length_map]

theorem quantileIdx_eq_floor (pool : ProbePool) {count : Nat}
    (hcount : 0 < count) :
    pool.quantileIdx count = ⌊pool.qRif * ((count : Rat) - 1)⌋₊ := by
  rw [quantileIdx, Nat.cast_pred hcount, Int.floor_toNat]

theorem quantileIdx_lt_pred {pool : ProbePool} {count : Nat}
    (hq0 : 0 ≤ pool.qRif) (hq1 : pool.qRif < 1) (hcount : 2 ≤ count) :
    pool.quantileIdx count < count - 1 := by
  have hpos : (0 : Rat) < ((count - 1 : Nat) : Rat) := by
    exact_mod_cast (by omega : 0 < count - 1)
  have hlt : pool.qRif * ((count - 1 : Nat) : Rat) <
      ((count - 1 : Nat) : Rat) := mul_lt_of_lt_one_left hpos hq1
  rw [quantileIdx, Int.floor_toNat]
  exact (Nat.floor_lt (mul_nonneg hq0 hpos.le)).mpr hlt

private theorem length_filter_rif (probes : List Probe) (f : Nat → Bool) :
    (probes.filter fun p => f p.rif).length =
      (probes.map Probe.rif).countP f := by
  rw [List.countP_map, List.countP_eq_length_filter]
  rfl

theorem latestProbes_perm_of_stale {pool pool' : ProbePool}
    {stale : List Probe} (h : pool.probes ~ pool'.probes ++ stale)
    (hstale : ∀ e ∈ stale, e ∉ pool.latestProbes) :
    pool.latestProbes ~ pool'.latestProbes := by
  apply latestReports_perm h
  intro e he hlatest
  exact hstale e he (mem_latestReports.mpr
    ⟨h.mem_iff.mpr (List.mem_append_right _ he), hlatest⟩)

theorem DistinctCopies.hotThreshold_eq_kth {pool : ProbePool} {t : Nat}
    (hdistinct : pool.DistinctCopies)
    (ht : pool.hotThreshold = .ok (some t)) :
    kthSmallest (pool.latestProbes.map Probe.rif)
      (pool.quantileIdx pool.replicas.card) = some t := by
  rw [← kthSmallest_perm hdistinct.latestRifs_perm, ← length_latestRifs]
  exact hotThreshold_eq_some_iff.mp ht

theorem hotThreshold_lt_of_strict_max {pool : ProbePool} {t : Nat} {p : Probe}
    (hq0 : 0 ≤ pool.qRif) (hq1 : pool.qRif < 1)
    (hdistinct : pool.DistinctCopies) (hk : 2 ≤ pool.replicas.card)
    (ht : pool.hotThreshold = .ok (some t))
    (hmax : ∀ p' ∈ pool.latestProbes, p'.replica ≠ p.replica →
      p'.rif < p.rif) : t < p.rif := by
  by_contra hle
  rw [not_lt] at hle
  have hlow := countP_lt_kthSmallest (hdistinct.hotThreshold_eq_kth ht)
  have hi := quantileIdx_lt_pred hq0 hq1 hk
  have hsplit := List.length_eq_countP_add_countP
    (l := pool.latestProbes.map Probe.rif) (· < t)
  rw [List.length_map, length_latestProbes hdistinct.nodup_latest] at hsplit
  -- Only the replica of `p` can fail to lie below `t`.
  have hrest : (pool.latestProbes.map Probe.rif).countP
      (fun a => decide ¬ (decide (a < t)) = true) ≤ 1 := by
    rw [List.countP_map, List.countP_eq_length_filter]
    set rest := pool.latestProbes.filter
      ((fun a => decide ¬ (decide (a < t)) = true) ∘ Probe.rif) with hrest
    have hreplica : ∀ r ∈ rest.map Probe.replica, r = p.replica := by
      intro r hr
      obtain ⟨p', hp', rfl⟩ := List.mem_map.mp hr
      rw [hrest, List.mem_filter] at hp'
      by_contra hne
      have hbelow := hmax p' hp'.1 hne
      have habove : t ≤ p'.rif := by simpa using hp'.2
      omega
    have hnodup : (rest.map Probe.replica).Nodup :=
      (List.filter_sublist.map Probe.replica).nodup hdistinct.nodup_latest
    rw [List.eq_replicate_of_mem hreplica, List.nodup_replicate] at hnodup
    simpa using hnodup
  omega

/--
The threshold is the quantile of the RIF distribution across replicas: it
ranks the latest probes only, and superseded copies leave it unchanged.
-/
theorem hotThreshold_is_replica_quantile (pool : ProbePool)
    (hq0 : 0 ≤ pool.qRif) (hq1 : pool.qRif ≤ 1) (hne : pool.probes ≠ [])
    (hdistinct : pool.DistinctCopies) :
    let k := pool.replicas.card
    let i := ⌊pool.qRif * ((k : Rat) - 1)⌋₊
    ∃ t, pool.hotThreshold = .ok (some t) ∧
      (∃ p ∈ pool.latestProbes, p.rif = t) ∧
      (pool.latestProbes.filter fun p => p.rif < t).length ≤ i ∧
      (pool.latestProbes.filter fun p => t < p.rif).length ≤ k - 1 - i ∧
      (∀ pool' : ProbePool, pool'.qRif = pool.qRif →
        pool'.probes ~ pool.probes → pool'.hotThreshold = .ok (some t)) ∧
      (∀ (pool' : ProbePool) (stale : List Probe), pool'.qRif = pool.qRif →
        pool'.probes ~ pool.probes ++ stale →
        (∀ e ∈ stale, e ∉ pool'.latestProbes) →
        pool'.hotThreshold = .ok (some t)) ∧
      (∀ (pool' : ProbePool) (stale : List Probe), pool'.qRif = pool.qRif →
        pool.probes ~ pool'.probes ++ stale →
        (∀ e ∈ stale, e ∉ pool.latestProbes) →
        pool'.hotThreshold = .ok (some t)) ∧
      (2 ≤ k → pool.qRif < 1 → ∀ p ∈ pool.latestProbes,
        (∀ p' ∈ pool.latestProbes, p'.replica ≠ p.replica → p'.rif < p.rif) →
        t < p.rif) := by
  intro k i
  have hnodup := hdistinct.nodup_latest
  have hk : 0 < k := by
    change 0 < pool.replicas.card
    rw [← length_latestRifs]
    exact List.length_pos_iff.mpr (mt latestRifs_eq_nil_iff.mp hne)
  obtain ⟨t, ht⟩ := hotThreshold_isSome hq1 hne
  have hkth := hdistinct.hotThreshold_eq_kth ht
  rw [quantileIdx_eq_floor pool hk] at hkth
  refine ⟨t, ht, hotThreshold_mem ht, ?_, ?_, ?_, ?_, ?_, ?_⟩
  · rw [length_filter_rif _ (· < t)]
    exact countP_lt_kthSmallest hkth
  · rw [length_filter_rif _ (t < ·)]
    simpa [length_latestProbes hnodup] using countP_gt_kthSmallest hkth
  · intro pool' hq hprobes
    have hperm : pool'.probes ~ pool.probes ++ [] := by simpa using hprobes
    have hlatest : pool'.latestProbes ~ pool.latestProbes :=
      latestProbes_perm_of_stale hperm (by simp)
    exact hotThreshold_congr hnodup hq hlatest ht
  · intro pool' stale hq hprobes hstale
    exact hotThreshold_congr hnodup hq
      (latestProbes_perm_of_stale hprobes hstale) ht
  · intro pool' stale hq hprobes hstale
    exact hotThreshold_congr hnodup hq
      (latestProbes_perm_of_stale hprobes hstale).symm ht
  · intro hk2 hlt p _ hmax
    exact hotThreshold_lt_of_strict_max hq0 hlt hdistinct hk2 ht hmax

def threeCopiesPool : ProbePool :=
  { new 16 1000000000 2 defaultQRif with
    probes :=
      [Probe.fresh 0 ⟨2, 1000, 0⟩ 1, Probe.fresh 1 ⟨3, 2000, 0⟩ 2,
       Probe.fresh 0 ⟨8, 1500, 0⟩ 3, Probe.fresh 0 ⟨9, 3000, 0⟩ 4] }

theorem threeCopiesPool_quantile :
    ∃ t, threeCopiesPool.hotThreshold = .ok (some t) ∧
      (threeCopiesPool.latestProbes.filter fun p => t < p.rif).length ≤ 1 ∧
      t < 9 := by
  have hdistinct : threeCopiesPool.DistinctCopies := by
    unfold DistinctCopies DistinctStamps
    decide
  obtain ⟨t, ht, -, -, hhigh, -, -, -, hmax⟩ :=
    hotThreshold_is_replica_quantile threeCopiesPool (by decide +kernel)
      (by decide +kernel) (by decide) hdistinct
  refine ⟨t, ht, hhigh.trans (by decide +kernel), ?_⟩
  exact hmax (by decide) (by decide +kernel) (Probe.fresh 0 ⟨9, 3000, 0⟩ 4)
    (by decide +kernel) (by decide +kernel)

end ProbePool

end Prequal
