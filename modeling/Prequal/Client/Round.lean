import Prequal.Client.Policy

/-!
# One round of the policy

A round expires the pool, selects when two probes are left and then removes
probes.  Removals only drop replicas, and a quantile that is in range for some
replicas is in range for fewer, so a round can unwind inside the selection
only.  Its effect on the pool is therefore a run of pool operations.
-/

namespace Prequal

open Foundation

namespace ProbePool

theorem alive_iff {pool : ProbePool} {now : Instant} {p : Probe} :
    pool.alive now p ↔ durationSince now p.receivedAt < pool.ttl ∧
      p.uses < pool.reuseBudget := by
  simp [alive]

/-! ## Thresholds of shrinking pools -/

theorem quantileIdx_lt_of_le {pool : ProbePool} {count count' : Nat}
    (h : pool.quantileIdx count < count) (hpos : 0 < count')
    (hle : count' ≤ count) : pool.quantileIdx count' < count' := by
  by_cases hq : pool.qRif ≤ 1
  · exact quantileIdx_lt hq hpos
  · have hq1 : 1 < pool.qRif := not_le.mp hq
    have hcount : 0 < count := hpos.trans_le hle
    rw [quantileIdx_eq_floor pool hcount] at h
    rw [quantileIdx_eq_floor pool hpos]
    have hlt : pool.qRif * ((count : Rat) - 1) < count := Nat.lt_of_floor_lt h
    apply (Nat.floor_lt' hpos.ne').mpr
    -- Each replica less lowers the rank by more than one.
    have hcast : (count' : Rat) ≤ count := by exact_mod_cast hle
    have hdrop : (count : Rat) - count' ≤
        pool.qRif * ((count : Rat) - count') :=
      le_mul_of_one_le_left (by linarith) hq1.le
    calc
      pool.qRif * ((count' : Rat) - 1)
          = pool.qRif * ((count : Rat) - 1) -
              pool.qRif * ((count : Rat) - count') := by ring
      _ < count - ((count : Rat) - count') := by linarith
      _ = count' := by ring

theorem hotThreshold_ok_iff {pool : ProbePool} :
    (∃ o, pool.hotThreshold = .ok o) ↔
      (pool.probes ≠ [] →
        pool.quantileIdx pool.replicas.card < pool.replicas.card) := by
  by_cases hne : pool.probes = []
  · simp [hotThreshold_of_nil hne, hne]
  · rw [hotThreshold_of_ne_nil hne, length_latestRifs]
    cases hk : kthSmallest pool.latestRifs
        (pool.quantileIdx pool.replicas.card) with
    | none =>
        have := kthSmallest_eq_none_iff.mp hk
        rw [length_latestRifs] at this
        simp [hne, this]
    | some t =>
        have hlt : ¬ pool.latestRifs.length ≤
            pool.quantileIdx pool.replicas.card := by
          intro hle
          rw [kthSmallest_eq_none_iff.mpr hle] at hk
          cases hk
        rw [length_latestRifs, not_le] at hlt
        simp [hlt]

theorem replicas_subset {pool pool' : ProbePool}
    (h : pool'.probes ⊆ pool.probes) : pool'.replicas ⊆ pool.replicas := by
  intro r hr
  rw [replicas, List.mem_toFinset, List.mem_map] at hr ⊢
  obtain ⟨p, hp, rfl⟩ := hr
  exact ⟨p, h hp, rfl⟩

theorem replicas_card_pos {pool : ProbePool} (h : pool.probes ≠ []) :
    0 < pool.replicas.card := by
  rw [← length_latestRifs]
  exact List.length_pos_iff.mpr (mt latestRifs_eq_nil_iff.mp h)

theorem hotThreshold_ok_of_subset {pool pool' : ProbePool}
    (hq : pool'.qRif = pool.qRif) (hsub : pool'.probes ⊆ pool.probes)
    (h : ∃ o, pool.hotThreshold = .ok o) :
    ∃ o, pool'.hotThreshold = .ok o := by
  rw [hotThreshold_ok_iff] at h ⊢
  intro hne'
  have hne : pool.probes ≠ [] := fun hnil => hne' (by simpa [hnil] using hsub)
  have hidx : pool'.quantileIdx pool'.replicas.card =
      pool.quantileIdx pool'.replicas.card := by
    rw [quantileIdx, quantileIdx, hq]
  rw [hidx]
  exact quantileIdx_lt_of_le (h hne) (replicas_card_pos hne')
    (Finset.card_le_card (replicas_subset hsub))

theorem hotThreshold_ok_of_length_lt {pool : ProbePool}
    (h : pool.probes.length < 2) : ∃ o, pool.hotThreshold = .ok o := by
  rw [hotThreshold_ok_iff]
  intro hne
  have hle : pool.replicas.card ≤ 1 := by
    have hcard := (pool.probes.map Probe.replica).toFinset_card_le
    rw [List.length_map] at hcard
    exact hcard.trans (by omega)
  have hone : pool.replicas.card = 1 := by
    have := replicas_card_pos hne
    omega
  simp [hone, quantileIdx]

theorem hotThreshold_ok_of_le {pool : ProbePool} (hq : pool.qRif ≤ 1) :
    ∃ o, pool.hotThreshold = .ok o := by
  rw [hotThreshold_ok_iff]
  intro hne
  exact quantileIdx_lt hq (replicas_card_pos hne)

theorem hclSelect_ok_iff {pool : ProbePool} :
    (∃ o, (pool.exec hclSelect).1 = .ok o) ↔
      ∃ o, pool.hotThreshold = .ok o := by
  have hidx : (∃ o, pool.hclIdx = .ok o) ↔
      ∃ o, pool.hotThreshold = .ok o := by
    rw [hclIdx_eq]
    cases pool.hotThreshold with
    | error e => simp
    | ok o => cases o <;> simp
  rw [← hidx]
  rcases exec_hclSelect_cases pool with
    ⟨e, hi, hexec⟩ | ⟨hi, hexec⟩ | ⟨i, c, hi, -, hexec⟩ <;>
    simp [hi, hexec]

/-! ## Removals -/

def vacatedIdx (pool : ProbePool) : Option Nat :=
  if pool.probes = [] then none
  else
    match pool.removalIdx with
    | .ok o => o
    | .error _ => none

theorem apply_removeOne_probes (pool : ProbePool) :
    (PoolOp.removeOne.apply pool).probes =
      swapRemoveAt pool.probes pool.vacatedIdx := by
  by_cases hne : pool.probes = []
  · simp [PoolOp.apply, exec_removeOne_nil hne, vacatedIdx, hne]
  · simp only [PoolOp.apply, exec_removeOne hne, vacatedIdx, if_neg hne]
    cases pool.removalIdx <;> rfl

theorem apply_removeOne_subset (pool : ProbePool) :
    (PoolOp.removeOne.apply pool).probes ⊆ pool.probes := by
  rw [apply_removeOne_probes]
  exact (swapRemoveAt_subperm _ _).subset

theorem worstIdx_isSome {pool : ProbePool} (h : pool.probes ≠ [])
    (threshold : Nat) : ∃ i, pool.worstIdx threshold = some i := by
  apply Option.ne_none_iff_exists'.mp
  unfold worstIdx
  split
  · exact mt lastMaxIdx_eq_none_iff.mp h
  · exact mt lastMaxIdx_eq_none_iff.mp h

theorem removalIdx_of_ok {pool : ProbePool} (hne : pool.probes ≠ [])
    (h : ∃ o, pool.hotThreshold = .ok o) :
    ∃ i p, pool.removalIdx = .ok (some i) ∧ pool.probes[i]? = some p := by
  obtain ⟨o, ho⟩ := h
  cases o with
  | none => exact absurd (hotThreshold_eq_none_iff.mp ho) hne
  | some threshold =>
      cases hflag : pool.removeOldestNext with
      | false =>
          obtain ⟨i, hi⟩ := Option.ne_none_iff_exists'.mp
            (mt oldestIdx_eq_none_iff.mp hne)
          obtain ⟨p, hp, -⟩ := oldestIdx_eq_some hi
          exact ⟨i, p, by simp [removalIdx, hflag, hi], hp⟩
      | true =>
          obtain ⟨i, hi⟩ := worstIdx_isSome hne threshold
          obtain ⟨p, hp⟩ := worstIdx_eq_some hi
          exact ⟨i, p, by simp [removalIdx, hflag, ho, hi], hp⟩

theorem exec_removeOne_of_ok {pool : ProbePool}
    (h : ∃ o, pool.hotThreshold = .ok o) :
    pool.exec removeOne = (.ok (), PoolOp.removeOne.apply pool) := by
  by_cases hne : pool.probes = []
  · simp [PoolOp.apply, exec_removeOne_nil hne]
  · obtain ⟨i, p, hidx, -⟩ := removalIdx_of_ok hne h
    simp only [PoolOp.apply, exec_removeOne hne, hidx]

theorem length_removeOne {pool : ProbePool}
    (h : ∃ o, pool.hotThreshold = .ok o) :
    (PoolOp.removeOne.apply pool).probes.length =
      pool.probes.length - 1 := by
  rw [apply_removeOne_probes, vacatedIdx]
  split
  · rename_i hnil
    simp [hnil]
  · rename_i hne
    obtain ⟨i, p, hidx, hp⟩ := removalIdx_of_ok hne h
    have hlength := (swapRemoveAt_perm hp).length_eq
    rw [List.length_cons] at hlength
    simp only [hidx]
    omega

theorem hotThreshold_ok_removeOne {pool : ProbePool}
    (h : ∃ o, pool.hotThreshold = .ok o) :
    ∃ o, (PoolOp.removeOne.apply pool).hotThreshold = .ok o :=
  hotThreshold_ok_of_subset (apply_limits pool .removeOne).2.2.2
    (apply_removeOne_subset pool) h

theorem exec_removeMany {pool : ProbePool}
    (h : ∃ o, pool.hotThreshold = .ok o) (count : Nat) :
    pool.exec (Balancer.removeMany count) =
      (.ok (), pool.run (List.replicate count .removeOne)) := by
  induction count generalizing pool with
  | zero => rfl
  | succ count ih =>
      rw [Balancer.removeMany, exec_bind, exec_removeOne_of_ok h,
        List.replicate_succ, run_cons]
      exact ih (hotThreshold_ok_removeOne h)

theorem length_run_removeOne {pool : ProbePool}
    (h : ∃ o, pool.hotThreshold = .ok o) (count : Nat) :
    (pool.run (List.replicate count .removeOne)).probes.length =
      pool.probes.length - count := by
  induction count generalizing pool with
  | zero => rfl
  | succ count ih =>
      rw [List.replicate_succ, run_cons, ih (hotThreshold_ok_removeOne h),
        length_removeOne h]
      omega

/-! ## The round -/

def roundIdx (pool : ProbePool) (now : Instant) : Except Panic (Option Nat) :=
  if (pool.expire now).len < 2 then .ok none else (pool.expire now).hclIdx

def roundWinner (pool : ProbePool) (now : Instant) : Option Probe :=
  match pool.roundIdx now with
  | .ok (some i) => (pool.expire now).probes[i]?
  | _ => none

def roundChoice (pool : ProbePool) (now : Instant) :
    Except Panic (Option Nat) :=
  if (pool.expire now).len < 2 then .ok none
  else ((pool.expire now).exec hclSelect).1

def roundOps (cfg : PrequalConfig) (pool : ProbePool) (now : Instant) :
    List PoolOp :=
  let removals := List.replicate cfg.rRemove PoolOp.removeOne
  if (pool.expire now).len < 2 then .expire now :: removals
  else
    match (pool.expire now).hclIdx with
    | .ok _ => .expire now :: .hclSelect :: removals
    | .error _ => [.expire now, .hclSelect]

theorem roundOps_inserted (cfg : PrequalConfig) (pool : ProbePool)
    (now : Instant) : (roundOps cfg pool now).flatMap PoolOp.inserted = [] := by
  rw [List.flatMap_eq_nil_iff]
  intro op hop
  simp only [roundOps] at hop
  split at hop
  · rcases List.mem_cons.mp hop with rfl | hop
    · rfl
    · rw [List.eq_of_mem_replicate hop]
      rfl
  · split at hop
    · rcases List.mem_cons.mp hop with rfl | hop
      · rfl
      · rcases List.mem_cons.mp hop with rfl | hop
        · rfl
        · rw [List.eq_of_mem_replicate hop]
          rfl
    · rcases List.mem_pair.mp hop with rfl | rfl <;> rfl

theorem hotThreshold_ok_hclSelect {pool : ProbePool} {o : Option Nat}
    (h : pool.hclIdx = .ok o) :
    ∃ o', (PoolOp.hclSelect.apply pool).hotThreshold = .ok o' := by
  have hok : ∃ o', pool.hotThreshold = .ok o' := by
    rw [hclIdx_eq] at h
    rcases ht : pool.hotThreshold with e | o'
    · simp [ht] at h
    · exact ⟨o', rfl⟩
  have hreplicas : (PoolOp.hclSelect.apply pool).replicas = pool.replicas :=
    congrArg List.toFinset (apply_hclSelect_replicas pool)
  have hqRif : (PoolOp.hclSelect.apply pool).qRif = pool.qRif :=
    (apply_limits pool .hclSelect).2.2.2
  rw [hotThreshold_ok_iff] at hok ⊢
  intro hne
  rw [hreplicas, quantileIdx, hqRif]
  refine hok fun hnil => hne ?_
  have hnone := apply_hclSelect_replicas pool
  rw [hnil] at hnone
  exact List.map_eq_nil_iff.mp hnone

theorem exec_lockedRound (cfg : PrequalConfig) (pool : ProbePool)
    (now : Instant) :
    pool.exec (Balancer.lockedRound cfg now) =
      (pool.roundChoice now, pool.run (roundOps cfg pool now)) := by
  simp only [Balancer.lockedRound, exec_bind, exec_modify, exec_get,
    roundChoice, roundOps]
  set expired := pool.expire now with hexpired
  by_cases hlen : expired.len < 2
  · have hok := hotThreshold_ok_of_length_lt hlen
    simp only [hlen, if_true, exec_bind, exec_pure, exec_removeMany hok,
      run_cons, PoolOp.apply, ← hexpired]
  · simp only [hlen, if_false]
    rcases exec_hclSelect_cases expired with
      ⟨e, hidx, hexec⟩ | ⟨hidx, hexec⟩ | ⟨i, c, hidx, -, hexec⟩
    · simp only [exec_bind, hexec, hidx, run_cons, run_nil, PoolOp.apply,
        ← hexpired]
    · have hok := hotThreshold_ok_hclSelect hidx
      simp only [PoolOp.apply, hexec] at hok
      simp only [exec_bind, hexec, hidx, exec_removeMany hok, exec_pure,
        run_cons, PoolOp.apply, ← hexpired]
    · have hok := hotThreshold_ok_hclSelect hidx
      simp only [PoolOp.apply, hexec] at hok
      simp only [exec_bind, hexec, hidx, exec_removeMany hok, exec_pure,
        run_cons, PoolOp.apply, ← hexpired]

theorem roundOps_of_few {pool : ProbePool} {now : Instant}
    (cfg : PrequalConfig) (h : (pool.expire now).len < 2) :
    roundOps cfg pool now =
      .expire now :: List.replicate cfg.rRemove .removeOne := by
  simp only [roundOps, if_pos h]

theorem roundOps_of_error {pool : ProbePool} {now : Instant} {e : Panic}
    (cfg : PrequalConfig) (h : 2 ≤ (pool.expire now).len)
    (hidx : (pool.expire now).hclIdx = .error e) :
    roundOps cfg pool now = [.expire now, .hclSelect] := by
  simp only [roundOps, if_neg (not_lt.mpr h), hidx]

theorem roundOps_of_ok {pool : ProbePool} {now : Instant} {o : Option Nat}
    (cfg : PrequalConfig) (h : 2 ≤ (pool.expire now).len)
    (hidx : (pool.expire now).hclIdx = .ok o) :
    roundOps cfg pool now =
      .expire now :: .hclSelect ::
        List.replicate cfg.rRemove .removeOne := by
  simp only [roundOps, if_neg (not_lt.mpr h), hidx]

theorem roundChoice_cases (pool : ProbePool) (now : Instant) :
    ((pool.expire now).len < 2 ∧ pool.roundIdx now = .ok none ∧
        pool.roundChoice now = .ok none) ∨
      (∃ e, 2 ≤ (pool.expire now).len ∧
        (pool.expire now).hclIdx = .error e ∧
        pool.roundIdx now = .error e ∧ pool.roundChoice now = .error e) ∨
      ∃ i c, 2 ≤ (pool.expire now).len ∧
        (pool.expire now).hclIdx = .ok (some i) ∧
        (pool.expire now).probes[i]? = some c ∧
        pool.roundIdx now = .ok (some i) ∧
        pool.roundChoice now = .ok (some c.replica) := by
  by_cases hlen : (pool.expire now).len < 2
  · exact .inl ⟨hlen, by simp [roundIdx, hlen], by simp [roundChoice, hlen]⟩
  · have hlen' : 2 ≤ (pool.expire now).len := not_lt.mp hlen
    simp only [roundIdx, roundChoice, hlen, if_false]
    rcases exec_hclSelect_cases (pool.expire now) with
      ⟨e, hidx, hexec⟩ | ⟨hidx, hexec⟩ | ⟨i, c, hidx, hc, hexec⟩
    · exact .inr (.inl ⟨e, hlen', hidx, hidx, by rw [hexec]⟩)
    · -- A pool of two probes has a threshold, so a position is found.
      exfalso
      rw [hclIdx_eq] at hidx
      rcases ht : (pool.expire now).hotThreshold with e | _ | t
      · simp [ht] at hidx
      · have hnil := hotThreshold_eq_none_iff.mp ht
        simp [len, hnil] at hlen'
      · obtain ⟨i, c, -, hsome⟩ := exists_isColdest ht
        rw [hclIdx_eq] at hsome
        rw [hsome] at hidx
        cases hidx
    · exact .inr (.inr ⟨i, c, hlen', hidx, hc, hidx, by rw [hexec]⟩)

theorem exec_select (cfg : PrequalConfig) (pool : ProbePool) (now : Instant)
    (random : Nat) :
    pool.exec (Balancer.select cfg now random) =
      ((pool.roundChoice now).map (·.getD random),
        pool.run (roundOps cfg pool now)) := by
  simp only [Balancer.select, exec_bind, exec_lockedRound]
  cases pool.roundChoice now <;> rfl

end ProbePool

end Prequal
