import Prequal.Client.Round

/-!
# Per-query removal

A removal takes the oldest probe and the worst one in turn.  The worst probe is
ranked by RIF when some probe is hot and by adjusted latency otherwise, so it
is never the probe a selection would choose, unless it is the only one.
-/

namespace Prequal

open Foundation
open scoped List

namespace ProbePool

/-! ## The worst probe -/

structure IsWorst (pool : ProbePool) (threshold : Nat) (w : Probe) :
    Prop where
  hottest : (∃ p ∈ pool.probes, threshold < p.rif) →
    ∀ q ∈ pool.probes, q.rif ≤ w.rif
  slowest : (∀ p ∈ pool.probes, p.rif ≤ threshold) →
    ∀ q ∈ pool.probes, q.adjustedLatency ≤ w.adjustedLatency

theorem any_hot_iff {pool : ProbePool} {threshold : Nat} :
    (pool.probes.any fun p => p.rif > threshold) = true ↔
      ∃ p ∈ pool.probes, threshold < p.rif := by
  simp

theorem worstIdx_of_hot {pool : ProbePool} {threshold j : Nat}
    (hhot : ∃ p ∈ pool.probes, threshold < p.rif)
    (h : pool.worstIdx threshold = some j) :
    ∃ w, IsLastMax Probe.rif pool.probes j w := by
  rw [worstIdx, if_pos (any_hot_iff.mpr hhot)] at h
  exact lastMaxIdx_spec h

theorem worstIdx_of_cold {pool : ProbePool} {threshold j : Nat}
    (hcold : ∀ p ∈ pool.probes, p.rif ≤ threshold)
    (h : pool.worstIdx threshold = some j) :
    ∃ w, IsLastMax Probe.adjustedLatency pool.probes j w := by
  have hnone : ¬ (pool.probes.any fun p => p.rif > threshold) = true := by
    rw [any_hot_iff]
    rintro ⟨p, hp, hlt⟩
    exact absurd (hcold p hp) (not_le.mpr hlt)
  rw [worstIdx, if_neg hnone] at h
  exact lastMaxIdx_spec h

theorem hot_or_cold (pool : ProbePool) (threshold : Nat) :
    (∃ p ∈ pool.probes, threshold < p.rif) ∨
      ∀ p ∈ pool.probes, p.rif ≤ threshold := by
  by_cases hhot : ∃ p ∈ pool.probes, threshold < p.rif
  · exact .inl hhot
  · right
    intro p hp
    by_contra hlt
    exact hhot ⟨p, hp, not_le.mp hlt⟩

theorem worstIdx_isWorst {pool : ProbePool} {threshold j : Nat}
    (h : pool.worstIdx threshold = some j) :
    ∃ w, pool.probes[j]? = some w ∧ pool.IsWorst threshold w := by
  rcases hot_or_cold pool threshold with hhot | hcold
  · obtain ⟨w, hw⟩ := worstIdx_of_hot hhot h
    refine ⟨w, hw.get, fun _ => hw.greatest, fun hcold => ?_⟩
    obtain ⟨p, hp, hlt⟩ := hhot
    exact absurd (hcold p hp) (not_le.mpr hlt)
  · obtain ⟨w, hw⟩ := worstIdx_of_cold hcold h
    refine ⟨w, hw.get, fun hhot => ?_, fun _ => hw.greatest⟩
    obtain ⟨p, hp, hlt⟩ := hhot
    exact absurd (hcold p hp) (not_le.mpr hlt)

theorem isColdest_ne_worst {pool : ProbePool} {t i j : Nat} {c : Probe}
    (hlen : 2 ≤ pool.probes.length) (hc : pool.IsColdest t i c)
    (hj : pool.worstIdx t = some j) : i ≠ j := by
  rintro rfl
  rcases hot_or_cold pool t with hhot | hcold
  · obtain ⟨w, hw⟩ := worstIdx_of_hot hhot hj
    obtain rfl : c = w := Option.some.inj (hc.get.symm.trans hw.get)
    obtain ⟨p, hp, hlt⟩ := hhot
    exact absurd (hw.greatest p hp) (not_le.mpr (hc.cold.trans_lt hlt))
  · obtain ⟨w, hw⟩ := worstIdx_of_cold hcold hj
    obtain rfl : c = w := Option.some.inj (hc.get.symm.trans hw.get)
    -- All latencies are equal, and any other position breaks one of the ties.
    obtain ⟨k, hk, hki⟩ : ∃ k, k < pool.probes.length ∧ k ≠ i := by
      by_cases hzero : i = 0
      · exact ⟨1, by omega, by omega⟩
      · exact ⟨0, by omega, by omega⟩
    have hget := List.getElem?_eq_getElem hk
    have hmem := List.getElem_mem hk
    have hkept : decide (pool.probes[k].rif ≤ t) = true := by
      simpa using hcold _ hmem
    rcases lt_or_gt_of_ne hki with hlt | hgt
    · have hfirst := hc.first k _ hlt hget hkept
      exact absurd (hw.greatest _ hmem) (not_le.mpr hfirst)
    · have hlast := hw.last k _ hgt hget
      exact absurd (hc.least _ hmem hkept) (not_le.mpr hlast)

/--
On a pool of two probes or more the selection and the removal of the worst
probe settle on different positions.
-/
theorem worst_is_not_selected (pool : ProbePool) (hq : pool.qRif ≤ 1)
    (hlen : 2 ≤ pool.probes.length) (hturn : pool.removeOldestNext = true) :
    ∃ t i c j w, pool.hotThreshold = .ok (some t) ∧
      pool.probes[i]? = some c ∧ pool.probes[j]? = some w ∧ i ≠ j ∧
      pool.hclIdx = .ok (some i) ∧
      pool.exec hclSelect = (.ok (some c.replica),
        pool.dispatchTo i c.replica) ∧
      pool.exec removeOne = (.ok (), { pool with
        probes := swapRemoveAt pool.probes (some j)
        removeOldestNext := false }) ∧
      ((∃ p ∈ pool.probes, t < p.rif) →
        t < w.rif ∧ ∀ p ∈ pool.probes, p.rif ≤ w.rif) ∧
      ((∀ p ∈ pool.probes, p.rif ≤ t) →
        ∀ p ∈ pool.probes, p.adjustedLatency ≤ w.adjustedLatency) := by
  have hne : pool.probes ≠ [] := by
    rintro hnil
    simp [hnil] at hlen
  obtain ⟨t, ht⟩ := hotThreshold_isSome hq hne
  obtain ⟨i, c, hc, hidx⟩ := exists_isColdest ht
  obtain ⟨j, hj⟩ := worstIdx_isSome hne t
  obtain ⟨w, hw, hworst⟩ := worstIdx_isWorst hj
  refine ⟨t, i, c, j, w, ht, hc.get, hw, isColdest_ne_worst hlen hc hj, hidx,
    exec_hclSelect_of_isColdest ht hc, ?_, ?_, hworst.slowest⟩
  · have hremoval : pool.removalIdx = .ok (some j) := by
      simp only [removalIdx, hturn, if_true, ht, hj]
    simp only [exec_removeOne hne, hremoval, hturn, Bool.not_true]
  · intro hhot
    have hmax := hworst.hottest hhot
    obtain ⟨p, hp, hlt⟩ := hhot
    exact ⟨hlt.trans_le (hmax p hp), hmax⟩

theorem fourReplicasPool_worst :
    let pool := { fourReplicasPool with removeOldestNext := true }
    ∃ (i j : Nat) (c w : Probe), i ≠ j ∧ pool.hclIdx = .ok (some i) ∧
      pool.probes[i]? = some c ∧ pool.probes[j]? = some w ∧
      (∀ p ∈ pool.probes, p.rif ≤ w.rif) ∧
      (pool.exec removeOne).2.probes =
        swapRemoveAt pool.probes (some j) := by
  intro pool
  obtain ⟨t, i, c, j, w, ht, hc, hw, hij, hidx, -, hremove, hhottest, -⟩ :=
    worst_is_not_selected pool (by decide +kernel) (by decide) rfl
  have hthreshold : pool.hotThreshold = .ok (some 3) := by decide +kernel
  obtain rfl : t = 3 := by simpa using ht.symm.trans hthreshold
  refine ⟨i, j, c, w, hij, hidx, hc, hw, (hhottest ?_).2, by rw [hremove]⟩
  exact ⟨Probe.fresh 3 ⟨10, 1000, 0⟩ 4, by decide, by decide⟩

/-! ## Turns -/

/-- An operation uses up a turn when it is a removal that meets a probe. -/
def turns (pool : ProbePool) : PoolOp → Nat
  | .removeOne => if pool.probes = [] then 0 else 1
  | _ => 0

def removals : ProbePool → List PoolOp → Nat
  | _, [] => 0
  | pool, op :: ops => pool.turns op + removals (op.apply pool) ops

theorem removals_concat (pool : ProbePool) (ops : List PoolOp)
    (op : PoolOp) :
    pool.removals (ops ++ [op]) =
      pool.removals ops + (pool.run ops).turns op := by
  induction ops generalizing pool with
  | nil => simp [removals]
  | cons op' ops ih =>
      rw [List.cons_append, removals, removals, ih, run_cons, Nat.add_assoc]

theorem apply_removeOldestNext (pool : ProbePool) (op : PoolOp) :
    (op.apply pool).removeOldestNext =
      if pool.turns op = 0 then pool.removeOldestNext
      else !pool.removeOldestNext := by
  cases op with
  | insert probe => simp [PoolOp.apply, exec_insert, turns]
  | expire now => simp [PoolOp.apply, expire, turns]
  | hclSelect =>
      rcases exec_hclSelect_cases pool with
        ⟨e, -, h⟩ | ⟨-, h⟩ | ⟨i, c, -, -, h⟩ <;>
        simp [PoolOp.apply, h, dispatchTo, turns]
  | removeOne =>
      by_cases hne : pool.probes = []
      · simp [PoolOp.apply, exec_removeOne_nil hne, turns, hne]
      · simp only [PoolOp.apply, exec_removeOne hne, turns, hne, if_false,
          one_ne_zero]
        cases pool.removalIdx <;> rfl

theorem run_removeOldestNext {pool : ProbePool}
    (hnew : pool.removeOldestNext = false) (ops : List PoolOp) :
    (pool.run ops).removeOldestNext = decide (pool.removals ops % 2 = 1) := by
  induction ops using List.reverseRecOn with
  | nil => simpa [removals] using hnew
  | append_singleton past op ih =>
      have hturn : (pool.run past).turns op = 0 ∨
          (pool.run past).turns op = 1 := by
        cases op with
        | removeOne =>
            rw [turns]
            split
            · exact .inl rfl
            · exact .inr rfl
        | _ => exact .inl rfl
      rw [run_concat, apply_removeOldestNext, ih, removals_concat]
      rcases hturn with hturn | hturn
      · rw [hturn]
        rfl
      · rw [hturn, if_neg one_ne_zero, ← decide_not, decide_eq_decide]
        omega

theorem exec_removeOne_spec {pool : ProbePool} (hq : pool.qRif ≤ 1)
    (hne : pool.probes ≠ []) :
    ∃ p pool', pool.exec removeOne = (.ok (), pool') ∧
      pool' = { pool with
        probes := pool'.probes
        removeOldestNext := !pool.removeOldestNext } ∧
      p :: pool'.probes ~ pool.probes ∧
      (pool.removeOldestNext = false →
        ∀ q ∈ pool.probes, p.receivedAt ≤ q.receivedAt) ∧
      (pool.removeOldestNext = true →
        ∃ t, pool.hotThreshold = .ok (some t) ∧ pool.IsWorst t p) := by
  obtain ⟨t, ht⟩ := hotThreshold_isSome hq hne
  rw [exec_removeOne hne]
  cases hturn : pool.removeOldestNext with
  | false =>
      obtain ⟨i, hi⟩ := Option.ne_none_iff_exists'.mp
        (mt oldestIdx_eq_none_iff.mp hne)
      obtain ⟨p, hp, hleast⟩ := oldestIdx_eq_some hi
      have hidx : pool.removalIdx = .ok (some i) := by
        simp [removalIdx, hturn, hi]
      rw [hidx]
      refine ⟨p, _, rfl, rfl, swapRemoveAt_perm hp, fun _ => hleast, ?_⟩
      exact fun hother => absurd hother Bool.false_ne_true
  | true =>
      obtain ⟨j, hj⟩ := worstIdx_isSome hne t
      obtain ⟨w, hw, hworst⟩ := worstIdx_isWorst hj
      have hidx : pool.removalIdx = .ok (some j) := by
        simp only [removalIdx, hturn, if_true, ht, hj]
      rw [hidx]
      refine ⟨w, _, rfl, rfl, swapRemoveAt_perm hw, ?_,
        fun _ => ⟨t, ht, hworst⟩⟩
      exact fun hother => absurd hother.symm Bool.false_ne_true

/--
Removals alternate over whole runs: those that meet a probe take the oldest
one at odd turns and the worst one at even turns, and nothing else takes part
in the alternation.
-/
theorem removal_alternates (capacity : Nat) (ttl : Duration) (budget : Nat)
    (q : Rat) (hq : q ≤ 1) (ops : List PoolOp) :
    let start := new capacity ttl budget q
    let pool := start.run ops
    let turn := start.removals ops + 1
    (pool.probes = [] → pool.exec removeOne = (.ok (), pool)) ∧
    (∀ op : PoolOp, op ≠ .removeOne →
      (op.apply pool).removeOldestNext = pool.removeOldestNext) ∧
    (pool.probes ≠ [] → ∃ p pool',
      pool.exec removeOne = (.ok (), pool') ∧
      p :: pool'.probes ~ pool.probes ∧
      (turn % 2 = 1 → ∀ q ∈ pool.probes, p.receivedAt ≤ q.receivedAt) ∧
      (turn % 2 = 0 → ∃ t, pool.hotThreshold = .ok (some t) ∧
        ((∃ h ∈ pool.probes, t < h.rif) →
          ∀ q ∈ pool.probes, q.rif ≤ p.rif) ∧
        ((∀ h ∈ pool.probes, h.rif ≤ t) →
          ∀ q ∈ pool.probes, q.adjustedLatency ≤ p.adjustedLatency))) := by
  intro start pool turn
  refine ⟨exec_removeOne_nil, fun op hop => ?_, fun hne => ?_⟩
  · rw [apply_removeOldestNext, if_pos]
    cases op with
    | removeOne => exact absurd rfl hop
    | _ => rfl
  · have hlimits : pool.qRif ≤ 1 :=
      (run_limits start ops).2.2.2.trans_le hq
    have hflag : pool.removeOldestNext =
        decide (start.removals ops % 2 = 1) := run_removeOldestNext rfl ops
    obtain ⟨p, pool', hexec, -, hperm, hodd, heven⟩ :=
      exec_removeOne_spec hlimits hne
    refine ⟨p, pool', hexec, hperm, fun hturn => hodd ?_, fun hturn => ?_⟩
    · rw [hflag, decide_eq_false_iff_not]
      omega
    · obtain ⟨t, ht, hworst⟩ := heven (by
        rw [hflag, decide_eq_true_eq]
        omega)
      exact ⟨t, ht, hworst.hottest, hworst.slowest⟩

theorem threeInserts_removed :
    let pool := (new 4 1000000000 4 defaultQRif).run
      [.removeOne, .insert (Probe.fresh 0 ⟨0, 1000, 0⟩ 2),
       .insert (Probe.fresh 1 ⟨5, 9000, 0⟩ 1)]
    ∃ p pool', pool.exec removeOne = (.ok (), pool') ∧
      p :: pool'.probes ~ pool.probes ∧
      ∀ q ∈ pool.probes, p.receivedAt ≤ q.receivedAt := by
  intro pool
  obtain ⟨p, pool', hexec, hperm, hodd, -⟩ :=
    (removal_alternates 4 1000000000 4 defaultQRif (by decide +kernel)
      [.removeOne, .insert (Probe.fresh 0 ⟨0, 1000, 0⟩ 2),
       .insert (Probe.fresh 1 ⟨5, 9000, 0⟩ 1)]).2.2 (by decide)
  exact ⟨p, pool', hexec, hperm, hodd (by decide)⟩

end ProbePool

end Prequal
