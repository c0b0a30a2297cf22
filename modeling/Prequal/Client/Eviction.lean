import Prequal.Client.Round
import Prequal.Foundation.Window

/-!
# Overflow eviction

An insertion into a full pool drops the probe received first.  The vector is
unordered, so this is a statement about times and not about positions: as long
as only insertions and selections run, the pool is the window of the probes
inserted last, in some order.
-/

namespace Prequal

open Foundation
open scoped List

/-- Insertions and selections leave removal to the eviction. -/
def PoolOp.KeepsProbes : PoolOp → Prop
  | .insert _ => True
  | .hclSelect => True
  | _ => False

namespace ProbePool

theorem apply_insert_of_full {pool : ProbePool} (probe : Probe)
    (hfull : pool.capacity ≤ pool.probes.length) (hne : pool.probes ≠ []) :
    ∃ oldest rest, oldest :: rest ~ pool.probes ∧
      (∀ q ∈ pool.probes, oldest.receivedAt ≤ q.receivedAt) ∧
      ((PoolOp.insert probe).apply pool).probes = rest ++ [probe] := by
  obtain ⟨i, hi⟩ := Option.ne_none_iff_exists'.mp
    (mt oldestIdx_eq_none_iff.mp hne)
  obtain ⟨oldest, hget, hleast⟩ := oldestIdx_eq_some hi
  have hevict : pool.evictIdx = some i := by rw [evictIdx, if_pos hfull, hi]
  refine ⟨oldest, swapRemoveAt pool.probes (some i), swapRemoveAt_perm hget,
    hleast, ?_⟩
  rw [PoolOp.apply, exec_insert, hevict]

theorem apply_insert_of_room {pool : ProbePool} (probe : Probe)
    (hroom : pool.probes.length < pool.capacity) :
    ((PoolOp.insert probe).apply pool).probes = pool.probes ++ [probe] := by
  rw [PoolOp.apply, exec_insert, evictIdx, if_neg (not_le.mpr hroom),
    swapRemoveAt_none]

/-! ## The bound -/

def Bounded (pool : ProbePool) : Prop := pool.probes.length ≤ pool.capacity

theorem Bounded.apply {pool : ProbePool} (h : pool.Bounded)
    (hcapacity : 1 ≤ pool.capacity) (op : PoolOp) :
    (op.apply pool).Bounded := by
  unfold Bounded at h ⊢
  rw [(apply_limits pool op).1]
  cases op with
  | insert probe =>
      by_cases hroom : pool.probes.length < pool.capacity
      · rw [apply_insert_of_room probe hroom, List.length_append]
        exact hroom
      · have hne : pool.probes ≠ [] := by
          rintro hnil
          rw [hnil, List.length_nil] at hroom
          omega
        obtain ⟨oldest, rest, hperm, -, hprobes⟩ :=
          apply_insert_of_full probe (not_lt.mp hroom) hne
        have hlength := hperm.length_eq
        rw [List.length_cons] at hlength
        rw [hprobes, List.length_append, List.length_singleton, hlength]
        exact h
  | expire now => exact (List.length_filter_le _ _).trans h
  | hclSelect =>
      have hlength := congrArg List.length (apply_hclSelect_origins pool)
      rw [List.length_map, List.length_map] at hlength
      rwa [hlength]
  | removeOne =>
      rw [apply_removeOne_probes]
      exact (swapRemoveAt_subperm _ _).length_le.trans h

theorem run_bounded {pool : ProbePool} (h : pool.Bounded)
    (hcapacity : 1 ≤ pool.capacity) (ops : List PoolOp) :
    (pool.run ops).Bounded := by
  induction ops generalizing pool with
  | nil => exact h
  | cons op ops ih =>
      rw [run_cons]
      refine ih (h.apply hcapacity op) ?_
      rwa [(apply_limits pool op).1]

/-! ## The window -/

def insertedOrigins (ops : List PoolOp) : List Origin :=
  (ops.flatMap PoolOp.inserted).map Probe.origin

theorem insertedOrigins_concat (ops : List PoolOp) (op : PoolOp) :
    insertedOrigins (ops ++ [op]) =
      insertedOrigins ops ++ op.inserted.map Probe.origin := by
  simp [insertedOrigins]

theorem eq_head_of_least {x y : Origin} {l : List Origin}
    (h : ((x :: l).map Origin.receivedAt).Pairwise (· < ·))
    (hy : y ∈ x :: l)
    (hleast : ∀ z ∈ x :: l, y.receivedAt ≤ z.receivedAt) : y = x := by
  rw [List.map_cons, List.pairwise_cons] at h
  rcases List.mem_cons.mp hy with rfl | hmem
  · rfl
  · have hlt := h.1 _ (List.mem_map_of_mem hmem)
    exact absurd (hleast x List.mem_cons_self) (not_le.mpr hlt)

theorem window_insert {pool : ProbePool} {past : List Origin} (probe : Probe)
    (hcapacity : 1 ≤ pool.capacity)
    (hpool : pool.probes.map Probe.origin ~ past.rtake pool.capacity)
    (hincreasing : (past.map Origin.receivedAt).Pairwise (· < ·)) :
    ((PoolOp.insert probe).apply pool).probes.map Probe.origin ~
      (past ++ [probe.origin]).rtake pool.capacity := by
  have hlength := hpool.length_eq
  rw [List.length_map, length_rtake] at hlength
  by_cases hroom : pool.probes.length < pool.capacity
  · rw [apply_insert_of_room probe hroom, List.map_append, List.map_singleton,
      rtake_concat_of_lt (by omega)]
    exact hpool.append_right _
  · have hne : pool.probes ≠ [] := by
      rintro hnil
      rw [hnil, List.length_nil] at hroom
      omega
    obtain ⟨oldest, rest, hperm, hleast, hprobes⟩ :=
      apply_insert_of_full probe (not_lt.mp hroom) hne
    rw [hprobes, List.map_append, List.map_singleton,
      rtake_concat_of_le hcapacity (by omega)]
    refine List.Perm.append_right _ ?_
    -- The evicted probe heads the window, since both are received first.
    have horigins := (hperm.map Probe.origin).trans hpool
    rw [List.map_cons] at horigins
    cases hwindow : past.rtake pool.capacity with
    | nil =>
        rw [hwindow] at horigins
        exact absurd horigins.length_eq (by simp)
    | cons x window =>
        rw [hwindow] at hpool horigins
        have hsorted : ((x :: window).map Origin.receivedAt).Pairwise
            (· < ·) := by
          rw [← hwindow]
          exact hincreasing.sublist ((rtake_sublist _ _).map _)
        have hhead : oldest.origin = x := by
          refine eq_head_of_least hsorted
            (horigins.subset List.mem_cons_self) fun z hz => ?_
          obtain ⟨q, hq, rfl⟩ := List.mem_map.mp (hpool.symm.subset hz)
          exact hleast q hq
        rw [hhead] at horigins
        exact (List.perm_cons x).mp horigins

theorem IncreasingInserts.origins {ops : List PoolOp}
    (h : IncreasingInserts ops) :
    ((insertedOrigins ops).map Origin.receivedAt).Pairwise (· < ·) := by
  rw [insertedOrigins, List.map_map]
  exact h

theorem run_window {capacity ttl budget : Nat} {q : Rat} {ops : List PoolOp}
    (hcapacity : 1 ≤ capacity) (hops : ∀ op ∈ ops, op.KeepsProbes)
    (hincreasing : IncreasingInserts ops) :
    ((new capacity ttl budget q).run ops).probes.map Probe.origin ~
      (insertedOrigins ops).rtake capacity := by
  induction ops using List.reverseRecOn with
  | nil => simp [new, insertedOrigins]
  | append_singleton past op ih =>
      have hpast : IncreasingInserts past := hincreasing.of_append
      have hwindow := ih (fun op' hop' => hops op' (by simp [hop'])) hpast
      have hlimit : ((new capacity ttl budget q).run past).capacity =
          capacity := (run_limits _ past).1
      rw [run_concat, insertedOrigins_concat]
      cases op with
      | insert probe =>
          have hinsert := window_insert probe
            (hcapacity.trans_eq hlimit.symm) (by rwa [hlimit])
            hpast.origins
          rwa [hlimit] at hinsert
      | hclSelect =>
          have hnone : PoolOp.hclSelect.inserted = [] := rfl
          rw [apply_hclSelect_origins, hnone, List.map_nil, List.append_nil]
          exact hwindow
      | expire now => exact absurd (hops (.expire now) (by simp)) id
      | removeOne => exact absurd (hops .removeOne (by simp)) id

/--
Overflow eviction is a sliding window.  The pool never outgrows its capacity,
an insertion into a full pool trades the probe received first for the new one,
and without other removals the pool holds the probes inserted last.
-/
theorem eviction_is_sliding_window (capacity : Nat) (ttl : Duration)
    (budget : Nat) (q : Rat) (hcapacity : 1 ≤ capacity)
    (ops : List PoolOp) :
    let pool := (new capacity ttl budget q).run ops
    pool.probes.length ≤ capacity ∧
    (pool.probes.length = capacity → ∀ probe, ∃ oldest rest,
      oldest :: rest ~ pool.probes ∧
      (∀ p ∈ pool.probes, oldest.receivedAt ≤ p.receivedAt) ∧
      ((PoolOp.insert probe).apply pool).probes = rest ++ [probe]) ∧
    ((∀ op ∈ ops, op.KeepsProbes) → IncreasingInserts ops →
      pool.probes.length = min (insertedOrigins ops).length capacity ∧
      (pool.probes.map Probe.origin).Nodup ∧
      pool.probes.map Probe.origin ~
        (insertedOrigins ops).rtake capacity) := by
  intro pool
  have hlimit : pool.capacity = capacity := (run_limits _ ops).1
  refine ⟨?_, fun hfull probe => ?_, fun hkeeps hincreasing => ?_⟩
  · have hnew : (new capacity ttl budget q).Bounded := Nat.zero_le _
    have hbounded : pool.Bounded := run_bounded hnew hcapacity ops
    exact hbounded.trans_eq hlimit
  · apply apply_insert_of_full probe (hlimit.trans hfull.symm).le
    rw [← List.length_pos_iff, hfull]
    exact hcapacity
  · have hwindow : pool.probes.map Probe.origin ~ _ :=
      run_window hcapacity hkeeps hincreasing
    have hlength := hwindow.length_eq
    rw [List.length_map, length_rtake, Nat.min_comm] at hlength
    have hnodup : ((insertedOrigins ops).map Origin.receivedAt).Nodup :=
      hincreasing.origins.imp ne_of_lt
    refine ⟨hlength, hwindow.nodup_iff.mpr ?_, hwindow⟩
    exact (rtake_sublist _ _).nodup (List.Nodup.of_map _ hnodup)

theorem threeInserts_window :
    (((new 2 1000000000 4 defaultQRif).run
      [.insert (Probe.fresh 0 ⟨0, 1000, 0⟩ 1),
       .insert (Probe.fresh 1 ⟨5, 9000, 0⟩ 2), .hclSelect,
       .insert (Probe.fresh 0 ⟨9, 8000, 0⟩ 3)]).probes.map
        Probe.origin) ~ [⟨1, 5, 9000, 2⟩, ⟨0, 9, 8000, 3⟩] := by
  have hincreasing : IncreasingInserts
      [.insert (Probe.fresh 0 ⟨0, 1000, 0⟩ 1),
       .insert (Probe.fresh 1 ⟨5, 9000, 0⟩ 2), .hclSelect,
       .insert (Probe.fresh 0 ⟨9, 8000, 0⟩ 3)] := by
    unfold IncreasingInserts
    decide
  exact ((eviction_is_sliding_window 2 1000000000 4 defaultQRif (by decide)
    _).2.2 (by simp [PoolOp.KeepsProbes]) hincreasing).2.2

end ProbePool

end Prequal
