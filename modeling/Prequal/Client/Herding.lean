import Prequal.Client.Round

/-!
# Selections in a row

Consecutive selections charge the chosen replicas only, so with one probe per
replica no RIF falls and the threshold never falls either.  A chosen probe was
cold, hence at most one above the threshold afterwards: a single client cannot
herd onto a replica beyond that.
-/

namespace Prequal

open Foundation
open scoped List

namespace ProbePool

def SelectFits (pool : ProbePool) : Prop :=
  ∀ i c, pool.hclIdx = .ok (some i) → pool.probes[i]? = some c →
    pool.DispatchFits c

def selectRun (pool : ProbePool) (count : Nat) : ProbePool :=
  pool.run (List.replicate count .hclSelect)

theorem selectRun_succ (pool : ProbePool) (count : Nat) :
    pool.selectRun (count + 1) =
      PoolOp.hclSelect.apply (pool.selectRun count) := by
  rw [selectRun, List.replicate_succ', run_concat]
  rfl

/-! ## One selection -/

structure Charges (pool pool' : ProbePool) (t : Nat) (c : Probe) : Prop where
  cold : c.rif ≤ t
  length : pool'.probes.length = pool.probes.length
  get : ∀ (j : Nat) (p : Probe), pool.probes[j]? = some p →
    ∃ p' : Probe, pool'.probes[j]? = some p' ∧ p'.replica = p.replica ∧
      p'.rif = if p.replica = c.replica then p.rif + 1 else p.rif

theorem charges_hclSelect {pool : ProbePool} {t : Nat}
    (hfits : pool.SelectFits) (ht : pool.hotThreshold = .ok (some t)) :
    ∃ c ∈ pool.probes, (pool.exec hclSelect).1 = .ok (some c.replica) ∧
      Charges pool (PoolOp.hclSelect.apply pool) t c := by
  obtain ⟨i, c, hc, hidx⟩ := exists_isColdest ht
  have hexec := exec_hclSelect_of_isColdest ht hc
  refine ⟨c, List.mem_of_getElem? hc.get, by rw [hexec], hc.cold, ?_, ?_⟩
  · rw [PoolOp.apply, hexec, dispatchTo_length]
  · intro j p hp
    rw [PoolOp.apply, hexec]
    exact ⟨_, dispatchTo_getElem?_of_fits hc.get (hfits i c hidx hc.get) hp,
      rfl, rfl⟩

theorem Charges.rif_le {pool pool' : ProbePool} {t j : Nat} {c p p' : Probe}
    (h : Charges pool pool' t c) (hp : pool.probes[j]? = some p)
    (hp' : pool'.probes[j]? = some p') : p.rif ≤ p'.rif := by
  obtain ⟨q, hq, -, hrif⟩ := h.get j p hp
  obtain rfl : q = p' := Option.some.inj (hq.symm.trans hp')
  rw [hrif]
  split <;> omega

theorem Charges.le_max {pool pool' : ProbePool} {t j : Nat} {c p p' : Probe}
    (h : Charges pool pool' t c) (hc : c ∈ pool.probes)
    (hone : (pool.probes.map Probe.replica).Nodup)
    (hp : pool.probes[j]? = some p) (hp' : pool'.probes[j]? = some p') :
    p'.replica = p.replica ∧ p'.rif ≤ max p.rif (t + 1) := by
  obtain ⟨q, hq, hreplica, hrif⟩ := h.get j p hp
  obtain rfl : q = p' := Option.some.inj (hq.symm.trans hp')
  refine ⟨hreplica, ?_⟩
  rw [hrif]
  split
  · rename_i hsame
    have hpc : p = c :=
      List.inj_on_of_nodup_map hone (List.mem_of_getElem? hp) hc hsame
    have hcold := h.cold
    rw [hpc]
    omega
  · exact le_max_left _ _

theorem Charges.threshold_le {pool pool' : ProbePool} {t t' : Nat} {c : Probe}
    (h : Charges pool pool' t c) (hq : pool'.qRif = pool.qRif)
    (hone : (pool.probes.map Probe.replica).Nodup)
    (hone' : (pool'.probes.map Probe.replica).Nodup)
    (ht : pool.hotThreshold = .ok (some t))
    (ht' : pool'.hotThreshold = .ok (some t')) : t ≤ t' := by
  have hkth := (hotThreshold_eq_kth_of_nodup hone).mp ht
  have hkth' := (hotThreshold_eq_kth_of_nodup hone').mp ht'
  have hidx : pool'.quantileIdx pool'.probes.length =
      pool.quantileIdx pool.probes.length := by
    rw [quantileIdx, quantileIdx, hq, h.length]
  rw [hidx] at hkth'
  refine kthSmallest_le_of_forall₂ ?_ hkth hkth'
  rw [List.forall₂_iff_get]
  refine ⟨by simp [h.length], fun j hj hj' => ?_⟩
  rw [List.length_map] at hj hj'
  simpa using h.rif_le (List.getElem?_eq_getElem hj)
    (List.getElem?_eq_getElem hj')

/-! ## Runs of selections -/

/-- No charge of the next `count` selections leaves a `u32`. -/
def SelectionsFit (pool : ProbePool) (count : Nat) : Prop :=
  ∀ k < count, (pool.selectRun k).SelectFits

section Runs

variable {pool : ProbePool}

theorem selectRun_qRif (pool : ProbePool) (k : Nat) :
    (pool.selectRun k).qRif = pool.qRif :=
  (run_limits pool _).2.2.2

theorem selectRun_replicas (pool : ProbePool) (k : Nat) :
    (pool.selectRun k).probes.map Probe.replica =
      pool.probes.map Probe.replica := by
  induction k with
  | zero => rfl
  | succ k ih => rw [selectRun_succ, apply_hclSelect_replicas, ih]

theorem length_selectRun (pool : ProbePool) (k : Nat) :
    (pool.selectRun k).probes.length = pool.probes.length := by
  have h := congrArg List.length (selectRun_replicas pool k)
  rwa [List.length_map, List.length_map] at h

theorem lt_length_selectRun {j i : Nat} {p : Probe}
    (h : (pool.selectRun j).probes[i]? = some p) (k : Nat) :
    i < (pool.selectRun k).probes.length := by
  have hlt := (List.getElem?_eq_some_iff.mp h).1
  rw [length_selectRun] at hlt ⊢
  exact hlt

theorem selectRun_ne_nil (hne : pool.probes ≠ []) (k : Nat) :
    (pool.selectRun k).probes ≠ [] := by
  rw [← List.length_pos_iff, length_selectRun, List.length_pos_iff]
  exact hne

theorem selectRun_threshold (hq : pool.qRif ≤ 1) (hne : pool.probes ≠ [])
    (k : Nat) : ∃ t, (pool.selectRun k).hotThreshold = .ok (some t) :=
  hotThreshold_isSome ((selectRun_qRif pool k).trans_le hq)
    (selectRun_ne_nil hne k)

theorem selectRun_step (hone : (pool.probes.map Probe.replica).Nodup)
    {k t t' : Nat} (hfits : (pool.selectRun k).SelectFits)
    (ht : (pool.selectRun k).hotThreshold = .ok (some t))
    (ht' : (pool.selectRun (k + 1)).hotThreshold = .ok (some t')) :
    t ≤ t' ∧ ∀ (j : Nat) (p p' : Probe),
      (pool.selectRun k).probes[j]? = some p →
      (pool.selectRun (k + 1)).probes[j]? = some p' →
      p'.replica = p.replica ∧ p'.rif ≤ max p.rif (t + 1) := by
  have honek : ((pool.selectRun k).probes.map Probe.replica).Nodup := by
    rwa [selectRun_replicas]
  have honek' : ((pool.selectRun (k + 1)).probes.map Probe.replica).Nodup := by
    rwa [selectRun_replicas]
  have hqk : (pool.selectRun (k + 1)).qRif = (pool.selectRun k).qRif := by
    rw [selectRun_qRif, selectRun_qRif]
  obtain ⟨c, hc, -, hcharges⟩ := charges_hclSelect hfits ht
  rw [← selectRun_succ] at hcharges
  exact ⟨hcharges.threshold_le hqk honek honek' ht ht',
    fun j p p' hp hp' => hcharges.le_max hc honek hp hp'⟩

theorem selectRun_spec (hq : pool.qRif ≤ 1)
    (hone : (pool.probes.map Probe.replica).Nodup) (hne : pool.probes ≠ [])
    {j k : Nat} (hjk : j ≤ k) (hfits : pool.SelectionsFit k) {t t' : Nat}
    (ht : (pool.selectRun j).hotThreshold = .ok (some t))
    (ht' : (pool.selectRun k).hotThreshold = .ok (some t')) :
    t ≤ t' ∧ ∀ (i : Nat) (p p' : Probe),
      (pool.selectRun j).probes[i]? = some p →
      (pool.selectRun k).probes[i]? = some p' →
      p'.replica = p.replica ∧ p'.rif ≤ max p.rif (t' + 1) := by
  induction k, hjk using Nat.le_induction generalizing t' with
  | base =>
      obtain rfl : t = t' := by simpa using ht.symm.trans ht'
      refine ⟨le_rfl, fun i p p' hp hp' => ?_⟩
      obtain rfl : p = p' := Option.some.inj (hp.symm.trans hp')
      exact ⟨rfl, le_max_left _ _⟩
  | succ k hjk ih =>
      obtain ⟨s, hs⟩ := selectRun_threshold hq hne k
      obtain ⟨hts, hpast⟩ := ih (fun m hm => hfits m (by omega)) hs
      obtain ⟨hst, hstep⟩ := selectRun_step hone (hfits k (by omega)) hs ht'
      refine ⟨hts.trans hst, fun i p p' hp hp' => ?_⟩
      have hmid := List.getElem?_eq_getElem (lt_length_selectRun hp' k)
      obtain ⟨hreplica, hle⟩ := hpast i p _ hp hmid
      obtain ⟨hreplica', hle'⟩ := hstep i _ p' hmid hp'
      exact ⟨hreplica'.trans hreplica, by omega⟩

theorem selectRun_selected (hq : pool.qRif ≤ 1)
    (hone : (pool.probes.map Probe.replica).Nodup) (hne : pool.probes ≠ [])
    {k t' r : Nat} (hfits : (pool.selectRun k).SelectFits)
    (ht' : (pool.selectRun (k + 1)).hotThreshold = .ok (some t'))
    (hr : ((pool.selectRun k).exec hclSelect).1 = .ok (some r)) :
    ∃ (i : Nat) (p : Probe), (pool.selectRun (k + 1)).probes[i]? = some p ∧
      p.replica = r ∧ p.rif ≤ t' + 1 := by
  obtain ⟨t, ht⟩ := selectRun_threshold hq hne k
  obtain ⟨hle, -⟩ := selectRun_step hone hfits ht ht'
  obtain ⟨c, hc, hexec, hcharges⟩ := charges_hclSelect hfits ht
  obtain rfl : c.replica = r := by simpa using hexec.symm.trans hr
  obtain ⟨i, hi⟩ := List.mem_iff_getElem?.mp hc
  obtain ⟨p, hp, hreplica, hrif⟩ := hcharges.get i c hi
  rw [← selectRun_succ] at hp
  have hcold := hcharges.cold
  rw [if_pos rfl] at hrif
  exact ⟨i, p, hp, hreplica, by omega⟩

theorem selectRun_even (hzero : pool.qRif = 0)
    (hone : (pool.probes.map Probe.replica).Nodup) {k m r : Nat}
    (hfits : pool.SelectionsFit m)
    (hr : ((pool.selectRun k).exec hclSelect).1 = .ok (some r))
    (hkm : k < m) {p q : Probe} (hp : p ∈ (pool.selectRun m).probes)
    (hpr : p.replica = r) (hqmem : q ∈ (pool.selectRun m).probes) :
    p.rif ≤ q.rif + 1 := by
  have hq : pool.qRif ≤ 1 := hzero.trans_le zero_le_one
  have hne : pool.probes ≠ [] := by
    rw [← List.length_pos_iff, ← length_selectRun pool m]
    exact List.length_pos_of_mem hp
  obtain ⟨t', ht'⟩ := selectRun_threshold hq hne (k + 1)
  obtain ⟨t, ht⟩ := selectRun_threshold hq hne m
  obtain ⟨i, s, hs, hsr, hsle⟩ :=
    selectRun_selected hq hone hne (hfits k hkm) ht' hr
  obtain ⟨hmono, hlater⟩ := selectRun_spec hq hone hne
    (Nat.succ_le_of_lt hkm) hfits ht' ht
  have honem : ((pool.selectRun m).probes.map Probe.replica).Nodup := by
    rwa [selectRun_replicas]
  -- The chosen position still holds the probe of `r`.
  have hi := lt_length_selectRun hs m
  obtain ⟨hreplica, hle⟩ := hlater i s _ hs (List.getElem?_eq_getElem hi)
  have hsame : p = (pool.selectRun m).probes[i] :=
    List.inj_on_of_nodup_map honem hp (List.getElem_mem hi)
      (hpr.trans (hreplica.trans hsr).symm)
  have hmin : t ≤ q.rif := by
    have hkth := (hotThreshold_eq_kth_of_nodup honem).mp ht
    rw [quantileIdx_zero ((selectRun_qRif pool m).trans hzero)] at hkth
    exact kthSmallest_zero_le hkth (List.mem_map_of_mem hqmem)
  rw [hsame]
  omega

end Runs

/--
A client on its own cannot herd.  Along any number of selections from a pool
with one probe per replica the threshold never falls, and no RIF is driven more
than one above it; at quantile zero the selections fill up the replicas evenly.
-/
theorem herding_bounded (pool : ProbePool) (hq : pool.qRif ≤ 1)
    (hone : (pool.probes.map Probe.replica).Nodup) (count : Nat)
    (hfits : pool.SelectionsFit count) :
    (pool.probes ≠ [] → ∀ k, k ≤ count →
      ∃ t, (pool.selectRun k).hotThreshold = .ok (some t)) ∧
    (∀ j k t t', j ≤ k → k ≤ count →
      (pool.selectRun j).hotThreshold = .ok (some t) →
      (pool.selectRun k).hotThreshold = .ok (some t') → t ≤ t') ∧
    (∀ (k t i : Nat) (p p' : Probe), k ≤ count →
      (pool.selectRun k).hotThreshold = .ok (some t) →
      pool.probes[i]? = some p → (pool.selectRun k).probes[i]? = some p' →
      p'.replica = p.replica ∧ p'.rif ≤ max p.rif (t + 1)) ∧
    (pool.qRif = 0 → ∀ k r, k < count →
      ((pool.selectRun k).exec hclSelect).1 = .ok (some r) →
      ∀ m, k < m → m ≤ count → ∀ p ∈ (pool.selectRun m).probes,
        p.replica = r → ∀ q ∈ (pool.selectRun m).probes,
          p.rif ≤ q.rif + 1) := by
  have hne_of_some : ∀ {k t : Nat},
      (pool.selectRun k).hotThreshold = .ok (some t) → pool.probes ≠ [] := by
    intro k t ht hnil
    have hlength := length_selectRun pool k
    rw [hnil, List.length_nil, List.length_eq_zero_iff] at hlength
    rw [hotThreshold_of_nil hlength] at ht
    cases ht
  refine ⟨fun hne k _ => selectRun_threshold hq hne k, ?_, ?_, ?_⟩
  · intro j k t t' hjk hk ht ht'
    exact (selectRun_spec hq hone (hne_of_some ht) hjk
      (fun m hm => hfits m (by omega)) ht ht').1
  · intro k t i p p' hk ht hp hp'
    have hne := hne_of_some ht
    obtain ⟨t₀, ht₀⟩ := selectRun_threshold hq hne 0
    exact (selectRun_spec hq hone hne (Nat.zero_le k)
      (fun m hm => hfits m (by omega)) ht₀ ht).2 i p p' hp hp'
  · intro hzero k r hk hr m hkm hm p hp hpr q hqmem
    exact selectRun_even hzero hone (fun l hl => hfits l (by omega)) hr hkm
      hp hpr hqmem

def rifOnlyPool : ProbePool := { fourReplicasPool with qRif := 0 }

theorem rifOnlyPool_herding :
    ∃ t, (rifOnlyPool.selectRun 5).hotThreshold = .ok (some t) ∧
      ∀ r < 3, ∀ p ∈ (rifOnlyPool.selectRun 5).probes, p.replica = r →
        ∀ q ∈ (rifOnlyPool.selectRun 5).probes, p.rif ≤ q.rif + 1 := by
  have hsmall : ∀ k < 5, ∀ p ∈ (rifOnlyPool.selectRun k).probes,
      p.uses + 1 < 2 ^ 32 ∧ p.rif + 1 < 2 ^ 32 := by
    decide +kernel
  have hfits : rifOnlyPool.SelectionsFit 5 := by
    intro k hk i c _ hc
    exact ⟨(hsmall k hk c (List.mem_of_getElem? hc)).1,
      fun p hp _ => (hsmall k hk p hp).2⟩
  have hchosen : ∀ r < 3, ∃ k < 5,
      ((rifOnlyPool.selectRun k).exec hclSelect).1 = .ok (some r) := by
    intro r hr
    obtain rfl | rfl | rfl : r = 0 ∨ r = 1 ∨ r = 2 := by omega
    · exact ⟨0, by decide, by decide +kernel⟩
    · exact ⟨1, by decide, by decide +kernel⟩
    · exact ⟨4, by decide, by decide +kernel⟩
  obtain ⟨hsome, -, -, hfill⟩ := herding_bounded rifOnlyPool
    (by decide +kernel) (by decide) 5 hfits
  obtain ⟨t, ht⟩ := hsome (by decide) 5 le_rfl
  refine ⟨t, ht, fun r hr => ?_⟩
  obtain ⟨k, hk, hselect⟩ := hchosen r hr
  exact hfill rfl k r hk hselect 5 hk le_rfl

end ProbePool

end Prequal
