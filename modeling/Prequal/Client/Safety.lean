import Prequal.Client.Bag

/-!
# Safety of the pool for all settings

Neither the capacity nor the quantile is checked before the pool is built.  A
quantile above one puts the index past the end once enough replicas report,
and a pool of capacity zero still keeps the probe it has just been given.
-/

namespace Prequal

open Foundation
open scoped List

namespace ProbePool

/-! ## When an operation returns -/

theorem quantileIdx_lt_iff {pool : ProbePool} {count : Nat}
    (hcount : 0 < count) :
    pool.quantileIdx count < count ↔
      pool.qRif * ((count : Rat) - 1) < count := by
  rw [quantileIdx_eq_floor pool hcount]
  exact Nat.floor_lt' hcount.ne'

theorem removeOne_ok_of_threshold {pool : ProbePool}
    (h : ∃ o, pool.hotThreshold = .ok o) :
    (pool.exec removeOne).1 = .ok () := by
  by_cases hne : pool.probes = []
  · rw [exec_removeOne_nil hne]
  · rw [exec_removeOne hne]
    obtain ⟨o, ho⟩ := h
    cases hturn : pool.removeOldestNext with
    | false => simp [removalIdx, hturn]
    | true =>
        cases o with
        | none => exact absurd (hotThreshold_eq_none_iff.mp ho) hne
        | some t => simp [removalIdx, hturn, ho]

theorem result_ok_of_threshold {pool : ProbePool}
    (h : ∃ o, pool.hotThreshold = .ok o) (op : PoolOp) :
    ∃ out, op.result pool = .ok out := by
  cases op with
  | insert probe => exact ⟨none, by rw [PoolOp.result, exec_insert]; rfl⟩
  | expire now => exact ⟨none, rfl⟩
  | hclSelect => exact hclSelect_ok_iff.mpr h
  | removeOne =>
      exact ⟨none, by
        rw [PoolOp.result, removeOne_ok_of_threshold h]
        rfl⟩

/-! ## How many replicas a pool can hold -/

/-- The run inserts reports of the first `n` replicas only. -/
def InsertsBelow (n : Nat) (ops : List PoolOp) : Prop :=
  ∀ p ∈ ops.flatMap PoolOp.inserted, p.replica < n

theorem run_new_replica_lt {capacity ttl budget n : Nat} {q : Rat}
    {ops : List PoolOp} (h : InsertsBelow n ops) :
    ∀ p ∈ ((new capacity ttl budget q).run ops).probes, p.replica < n := by
  intro p hp
  have hsub := run_origins (new capacity ttl budget q) ops
  rw [new, List.map_nil, List.nil_append] at hsub
  obtain ⟨p', hp', horigin⟩ := List.mem_map.mp
    (hsub.subset (List.mem_map_of_mem hp))
  have hreplica : p'.replica = p.replica := congrArg Origin.replica horigin
  rw [← hreplica]
  exact h p' hp'

theorem replicas_card_le_length (pool : ProbePool) :
    pool.replicas.card ≤ pool.probes.length := by
  have hcard := (pool.probes.map Probe.replica).toFinset_card_le
  rwa [List.length_map] at hcard

theorem replicas_card_le {pool : ProbePool} {n : Nat}
    (h : ∀ p ∈ pool.probes, p.replica < n) : pool.replicas.card ≤ n := by
  rw [← Finset.card_range n]
  apply Finset.card_le_card
  intro r hr
  rw [replicas, List.mem_toFinset, List.mem_map] at hr
  obtain ⟨p, hp, rfl⟩ := hr
  exact Finset.mem_range.mpr (h p hp)

def oneEach (k : Nat) : List PoolOp :=
  (List.range k).map fun r => .insert (Probe.fresh r ⟨0, 0, 0⟩ 0)

theorem oneEach_below {k n : Nat} (h : k ≤ n) :
    InsertsBelow n (oneEach k) := by
  intro p hp
  simp only [oneEach, List.mem_flatMap, List.mem_map, List.mem_range] at hp
  obtain ⟨op, ⟨r, hr, rfl⟩, hp⟩ := hp
  obtain rfl : p = _ := List.mem_singleton.mp hp
  exact Nat.lt_of_lt_of_le hr h

theorem run_oneEach {capacity ttl budget : Nat} {q : Rat} {k : Nat}
    (h : k ≤ capacity) :
    ((new capacity ttl budget q).run (oneEach k)).probes.map Probe.replica =
      List.range k := by
  induction k with
  | zero => rfl
  | succ k ih =>
      have hpast := ih (by omega)
      have hlimit : ((new capacity ttl budget q).run (oneEach k)).capacity =
          capacity := (run_limits _ _).1
      have hlength := congrArg List.length hpast
      rw [List.length_map, List.length_range] at hlength
      rw [oneEach, List.range_succ, List.map_append, List.map_singleton,
        run_concat]
      change ((PoolOp.insert _).apply (ProbePool.run _ (oneEach k))).probes.map
        _ = _
      rw [apply_insert_of_room _ (by rw [hlength, hlimit]; omega),
        List.map_append, hpast]
      rfl

/-! ## The settings that are safe -/

theorem run_new_bounded {capacity : Nat} (hcapacity : 1 ≤ capacity)
    (ttl budget : Nat) (q : Rat) (ops : List PoolOp) :
    ((new capacity ttl budget q).run ops).probes.length ≤ capacity := by
  have hnew : (new capacity ttl budget q).Bounded := Nat.zero_le _
  have hbounded := run_bounded hnew hcapacity ops
  exact hbounded.trans_eq (run_limits _ ops).1

theorem run_new_threshold_ok {capacity ttl budget n : Nat} {q : Rat}
    {ops : List PoolOp} (hcapacity : 1 ≤ capacity)
    (hq : q * (((min capacity n : Nat) : Rat) - 1) < (min capacity n : Nat))
    (hbelow : InsertsBelow n ops) :
    ∃ o, ((new capacity ttl budget q).run ops).hotThreshold = .ok o := by
  set pool := (new capacity ttl budget q).run ops with hpool
  have hqRif : pool.qRif = q := (run_limits _ ops).2.2.2
  rw [hotThreshold_ok_iff]
  intro hne
  have hpos := replicas_card_pos hne
  have hle : pool.replicas.card ≤ min capacity n := le_min
    ((replicas_card_le_length pool).trans
      (run_new_bounded hcapacity ttl budget q ops))
    (replicas_card_le (run_new_replica_lt hbelow))
  refine quantileIdx_lt_of_le ?_ hpos hle
  rwa [quantileIdx_lt_iff (hpos.trans_le hle), hqRif]

/--
A configuration is safe iff the pool has room for one probe and the quantile
is in range for as many replicas as the pool can hold.
-/
theorem pool_safe_iff (capacity : Nat) (ttl : Duration) (budget : Nat)
    (q : Rat) (n : Nat) (hn : 1 ≤ n) :
    (∀ (ops : List PoolOp) (op : PoolOp), InsertsBelow n (ops ++ [op]) →
      (∃ out, op.result ((new capacity ttl budget q).run ops) = .ok out) ∧
      ((new capacity ttl budget q).run (ops ++ [op])).probes.length ≤
        capacity) ↔
      1 ≤ capacity ∧
        q * (((min capacity n : Nat) : Rat) - 1) < (min capacity n : Nat) := by
  constructor
  · intro hsafe
    have hone : 1 ≤ capacity := by
      have hfirst := (hsafe [] (.insert (Probe.fresh 0 ⟨0, 0, 0⟩ 0))
        (by simp [InsertsBelow, PoolOp.inserted, Probe.fresh]; omega)).2
      rw [run_concat, PoolOp.apply, exec_insert, List.length_append,
        List.length_singleton] at hfirst
      omega
    refine ⟨hone, ?_⟩
    -- The pool that holds one report of as many replicas as it can.
    set k := min capacity n with hk
    have hpos : 0 < k := by omega
    have hreports : ((new capacity ttl budget q).run
        (oneEach k)).probes.map Probe.replica = List.range k :=
      run_oneEach (min_le_left capacity n)
    set pool := (new capacity ttl budget q).run (oneEach k) with hpool
    have hqRif : pool.qRif = q := (run_limits _ (oneEach k)).2.2.2
    have hcard : pool.replicas.card = k := by
      rw [replicas, hreports, List.toFinset_card_of_nodup List.nodup_range,
        List.length_range]
    have hne : pool.probes ≠ [] := by
      rintro hnil
      rw [replicas, hnil] at hcard
      exact hpos.ne hcard
    have hok := hclSelect_ok_iff.mp (hsafe (oneEach k) .hclSelect (by
      have hbelow := oneEach_below (min_le_right capacity n)
      simpa [InsertsBelow, PoolOp.inserted] using hbelow)).1
    have hidx := hotThreshold_ok_iff.mp hok hne
    rwa [hcard, quantileIdx_lt_iff hpos, hqRif] at hidx
  · rintro ⟨hone, hq⟩ ops op hbelow
    have hpast : InsertsBelow n ops := fun p hp => hbelow p (by
      rw [List.flatMap_append]
      exact List.mem_append_left _ hp)
    exact ⟨result_ok_of_threshold (run_new_threshold_ok hone hq hpast) op,
      run_new_bounded hone ttl budget q _⟩

theorem fourReplicas_safe :
    ∃ out, PoolOp.hclSelect.result
      ((new 4 (fromMillis 1000) 9 defaultQRif).run (oneEach 4)) =
        .ok out := by
  have hsafe := (pool_safe_iff 4 (fromMillis 1000) 9 defaultQRif 6
    (by decide)).mpr ⟨by decide, by decide +kernel⟩
  exact (hsafe (oneEach 4) .hclSelect (by unfold InsertsBelow; decide)).1

/-- Two replicas at quantile two unwind, and capacity zero keeps a probe. -/
theorem unchecked_settings_unsafe :
    (¬ ∀ (capacity ttl budget : Nat) (q : Rat) (ops : List PoolOp)
      (op : PoolOp), ∃ out,
        op.result ((new capacity ttl budget q).run ops) = .ok out) ∧
    ¬ ∀ (capacity ttl budget : Nat) (q : Rat) (ops : List PoolOp),
      ((new capacity ttl budget q).run ops).probes.length ≤ capacity := by
  constructor
  · intro hall
    obtain ⟨out, hout⟩ := hall 4 (fromMillis 1000) 9 2 (oneEach 2) .hclSelect
    have herror : PoolOp.hclSelect.result
        ((new 4 (fromMillis 1000) 9 2).run (oneEach 2)) =
          .error .indexOutOfBounds := by decide +kernel
    rw [herror] at hout
    cases hout
  · intro hall
    exact absurd (hall 0 (fromMillis 1000) 9 1 (oneEach 1)) (by decide)

end ProbePool

end Prequal
