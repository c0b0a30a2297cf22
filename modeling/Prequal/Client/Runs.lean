import Prequal.Client.Select
import Prequal.Foundation.Execution

/-!
# Runs of pool operations

A run interleaves the four operations in any order.  What it preserves of a
probe is its origin: the replica, the report and the time of receipt.
-/

namespace Prequal

open Foundation
open scoped List

structure Origin where
  replica : Nat
  rifAtProbe : Nat
  latencyUs : Nat
  receivedAt : Instant
  deriving DecidableEq, Repr

namespace Probe

def origin (p : Probe) : Origin :=
  ⟨p.replica, p.rifAtProbe, p.latencyUs, p.receivedAt⟩

@[simp] theorem use_origin (p : Probe) : p.use.origin = p.origin := rfl

@[simp] theorem compensate_origin (r : Nat) (p : Probe) :
    (p.compensate r).origin = p.origin := by
  unfold compensate
  split <;> rfl

@[simp] theorem compensate_replica (r : Nat) (p : Probe) :
    (p.compensate r).replica = p.replica := by
  unfold compensate
  split <;> rfl

@[simp] theorem compensate_uses (r : Nat) (p : Probe) :
    (p.compensate r).uses = p.uses := by
  unfold compensate
  split <;> rfl

theorem compensate_rif {r : Nat} {p : Probe}
    (hfits : p.replica = r → p.rif + 1 < 2 ^ 32) :
    (p.compensate r).rif = if p.replica = r then p.rif + 1 else p.rif := by
  unfold compensate
  split
  · rename_i h
    exact wrapU32_of_lt (hfits h)
  · rfl

theorem compensate_rifAtProbe (r : Nat) (p : Probe) :
    (p.compensate r).rifAtProbe = p.rifAtProbe := by
  unfold compensate
  split <;> rfl

end Probe

inductive PoolOp where
  | insert (probe : Probe)
  | expire (now : Instant)
  | hclSelect
  | removeOne
  deriving DecidableEq, Repr

namespace PoolOp

/-- The pool an operation leaves, also when it unwinds. -/
def apply (pool : ProbePool) : PoolOp → ProbePool
  | .insert probe => (pool.exec (ProbePool.insert probe)).2
  | .expire now => pool.expire now
  | .hclSelect => (pool.exec ProbePool.hclSelect).2
  | .removeOne => (pool.exec ProbePool.removeOne).2

def inserted : PoolOp → List Probe
  | .insert probe => [probe]
  | _ => []

end PoolOp

namespace ProbePool

def run (pool : ProbePool) (ops : List PoolOp) : ProbePool :=
  ops.foldl PoolOp.apply pool

@[simp] theorem run_nil (pool : ProbePool) : pool.run [] = pool := rfl

@[simp] theorem run_cons (pool : ProbePool) (op : PoolOp)
    (ops : List PoolOp) :
    pool.run (op :: ops) = (op.apply pool).run ops := rfl

theorem run_concat (pool : ProbePool) (ops : List PoolOp) (op : PoolOp) :
    pool.run (ops ++ [op]) = op.apply (pool.run ops) := by
  rw [run, List.foldl_append]
  rfl

/-! ## Frame conditions -/

def SameLimits (pool pool' : ProbePool) : Prop :=
  pool'.capacity = pool.capacity ∧ pool'.ttl = pool.ttl ∧
    pool'.reuseBudget = pool.reuseBudget ∧ pool'.qRif = pool.qRif

@[simp] theorem dispatchTo_origins (pool : ProbePool) (i r : Nat) :
    (pool.dispatchTo i r).probes.map Probe.origin =
      pool.probes.map Probe.origin := by
  apply List.ext_getElem?
  intro j
  rw [List.getElem?_map, dispatchTo_getElem?, List.getElem?_map,
    Option.map_map]
  cases pool.probes[j]? with
  | none => rfl
  | some p => by_cases hij : i = j <;> simp [hij]

theorem apply_limits (pool : ProbePool) (op : PoolOp) :
    SameLimits pool (op.apply pool) := by
  cases op with
  | insert probe => simp [PoolOp.apply, exec_insert, SameLimits]
  | expire now => simp [PoolOp.apply, expire, SameLimits]
  | hclSelect =>
      rcases exec_hclSelect_cases pool with
        ⟨e, -, h⟩ | ⟨-, h⟩ | ⟨i, c, -, -, h⟩ <;>
        simp [PoolOp.apply, h, SameLimits, dispatchTo]
  | removeOne =>
      by_cases hne : pool.probes = []
      · simp [PoolOp.apply, exec_removeOne_nil hne, SameLimits]
      · simp only [PoolOp.apply, exec_removeOne hne]
        split <;> simp [SameLimits]

theorem run_limits (pool : ProbePool) (ops : List PoolOp) :
    SameLimits pool (pool.run ops) := by
  refine foldl_history PoolOp.apply (fun _ => SameLimits pool) pool
    ⟨rfl, rfl, rfl, rfl⟩ ?_ ops
  intro _ op s ⟨hc, ht, hb, hq⟩
  obtain ⟨hc', ht', hb', hq'⟩ := apply_limits s op
  exact ⟨hc'.trans hc, ht'.trans ht, hb'.trans hb, hq'.trans hq⟩

theorem apply_hclSelect_origins (pool : ProbePool) :
    (PoolOp.hclSelect.apply pool).probes.map Probe.origin =
      pool.probes.map Probe.origin := by
  rcases exec_hclSelect_cases pool with
    ⟨e, -, hexec⟩ | ⟨-, hexec⟩ | ⟨i, c, -, -, hexec⟩ <;>
    simp [PoolOp.apply, hexec]

theorem apply_hclSelect_replicas (pool : ProbePool) :
    (PoolOp.hclSelect.apply pool).probes.map Probe.replica =
      pool.probes.map Probe.replica := by
  have h := congrArg (List.map Origin.replica) (apply_hclSelect_origins pool)
  rwa [List.map_map, List.map_map] at h

theorem apply_origins (pool : ProbePool) (op : PoolOp) :
    (op.apply pool).probes.map Probe.origin <+~
      pool.probes.map Probe.origin ++ op.inserted.map Probe.origin := by
  cases op with
  | insert probe =>
      simp only [PoolOp.apply, exec_insert, PoolOp.inserted, List.map_append,
        List.map_cons, List.map_nil]
      exact (subperm_map _ (swapRemoveAt_subperm _ _)).append (.refl _)
  | expire now =>
      simpa [PoolOp.apply, expire, PoolOp.inserted] using
        (List.filter_sublist.map _).subperm
  | hclSelect =>
      rw [apply_hclSelect_origins]
      simp [PoolOp.inserted, List.Subperm.refl]
  | removeOne =>
      by_cases hne : pool.probes = []
      · simp [PoolOp.apply, exec_removeOne_nil hne, PoolOp.inserted, hne]
      · simp only [PoolOp.apply, exec_removeOne hne, PoolOp.inserted,
          List.map_nil, List.append_nil]
        split
        · exact subperm_map _ (swapRemoveAt_subperm _ _)
        · exact .refl _

theorem run_origins (pool : ProbePool) (ops : List PoolOp) :
    (pool.run ops).probes.map Probe.origin <+~
      pool.probes.map Probe.origin ++
        (ops.flatMap PoolOp.inserted).map Probe.origin := by
  refine foldl_history PoolOp.apply (fun past s =>
    s.probes.map Probe.origin <+~ pool.probes.map Probe.origin ++
      (past.flatMap PoolOp.inserted).map Probe.origin) pool
    (by simp [List.Subperm.refl]) ?_ ops
  intro past op s ih
  simp only [List.flatMap_append, List.map_append, List.flatMap_singleton]
  rw [← List.append_assoc]
  exact (apply_origins s op).trans (ih.append (.refl _))

/-! ## Hot replicas -/

/-- The latest probe of the replica lies strictly above the threshold. -/
def IsHot (pool : ProbePool) (r : Nat) : Prop :=
  ∃ t p, pool.hotThreshold = .ok (some t) ∧ p ∈ pool.latestProbes ∧
    p.replica = r ∧ t < p.rif

def IncreasingInserts (ops : List PoolOp) : Prop :=
  ((ops.flatMap PoolOp.inserted).map Probe.receivedAt).Pairwise (· < ·)

theorem IncreasingInserts.of_append {past rest : List PoolOp}
    (h : IncreasingInserts (past ++ rest)) : IncreasingInserts past := by
  unfold IncreasingInserts at h ⊢
  rw [List.flatMap_append, List.map_append, List.pairwise_append] at h
  exact h.1

theorem run_new_receivedAt_nodup {capacity ttl budget : Nat} {q : Rat}
    {ops : List PoolOp} (hops : IncreasingInserts ops) :
    (((new capacity ttl budget q).run ops).probes.map
      Probe.receivedAt).Nodup := by
  have hsub := subperm_map Origin.receivedAt
    (run_origins (new capacity ttl budget q) ops)
  rw [new, List.map_nil, List.nil_append, List.map_map, List.map_map] at hsub
  exact nodup_of_subperm hsub (hops.imp ne_of_lt)

/--
Two replicas of which replica `0` reported twice: its superseded report is
cold and fast, its latest one is above the threshold.
-/
def staleCopyRun : List PoolOp :=
  [.insert (Probe.fresh 0 ⟨0, 1000, 0⟩ 1),
   .insert (Probe.fresh 1 ⟨5, 9000, 0⟩ 2),
   .insert (Probe.fresh 0 ⟨9, 8000, 0⟩ 3)]

theorem hot_replica_selected : ¬ ∀ (capacity : Nat) (ttl : Duration)
    (budget : Nat) (q : Rat) (ops : List PoolOp) (r : Nat),
    0 ≤ q → q ≤ 1 → IncreasingInserts ops →
    ((new capacity ttl budget q).run ops).probes ≠ [] →
    (((new capacity ttl budget q).run ops).exec hclSelect).1 = .ok (some r) →
    ¬ ((new capacity ttl budget q).run ops).IsHot r := by
  intro h
  apply h 4 1000000000 4 defaultQRif staleCopyRun 0
  · decide +kernel
  · decide +kernel
  · unfold IncreasingInserts
    decide
  · decide
  · decide +kernel
  · exact ⟨5, Probe.fresh 0 ⟨9, 8000, 0⟩ 3, by decide +kernel,
      by decide +kernel, rfl, by decide⟩

/--
A selection never settles on a hot probe.  It returns a hot replica only
through an older copy of it that is cold.
-/
theorem hclSelect_hot_only_by_older_copy (capacity : Nat) (ttl : Duration)
    (budget : Nat) (q : Rat) (ops : List PoolOp) (hq : 0 ≤ q ∧ q ≤ 1)
    (hops : IncreasingInserts ops)
    (hne : ((new capacity ttl budget q).run ops).probes ≠ []) :
    let pool := (new capacity ttl budget q).run ops
    ∃ t i c, pool.hotThreshold = .ok (some t) ∧
      pool.hclIdx = .ok (some i) ∧ pool.probes[i]? = some c ∧
      (pool.exec hclSelect).1 = .ok (some c.replica) ∧ c.rif ≤ t ∧
      ∀ p ∈ pool.latestProbes, p.replica = c.replica → t < p.rif →
        c.receivedAt < p.receivedAt := by
  intro pool
  have hlimits : pool.qRif = q :=
    (run_limits (new capacity ttl budget q) ops).2.2.2
  obtain ⟨t, ht⟩ := hotThreshold_isSome (hlimits.trans_le hq.2) hne
  obtain ⟨i, c, hc, hidx⟩ := exists_isColdest ht
  have hmem : c ∈ pool.probes := List.mem_of_getElem? hc.get
  refine ⟨t, i, c, ht, hidx, hc.get,
    by rw [exec_hclSelect_of_isColdest ht hc], hc.cold, ?_⟩
  intro p hp hreplica hhot
  obtain ⟨hp, hlatest⟩ := mem_latestReports.mp hp
  refine lt_of_le_of_ne (hlatest c hmem hreplica.symm) fun hstamp => ?_
  have hcp : c = p :=
    List.inj_on_of_nodup_map (run_new_receivedAt_nodup hops) hmem hp hstamp
  subst hcp
  exact absurd hc.cold (not_le.mpr hhot)

theorem staleCopyRun_older_copy :
    let pool := (new 4 1000000000 4 defaultQRif).run staleCopyRun
    ∃ t i c, pool.hotThreshold = .ok (some t) ∧
      pool.hclIdx = .ok (some i) ∧ pool.probes[i]? = some c ∧
      (pool.exec hclSelect).1 = .ok (some c.replica) ∧ c.rif ≤ t ∧
      ∀ p ∈ pool.latestProbes, p.replica = c.replica → t < p.rif →
        c.receivedAt < p.receivedAt := by
  have hops : IncreasingInserts staleCopyRun := by
    unfold IncreasingInserts
    decide
  exact hclSelect_hot_only_by_older_copy 4 1000000000 4 defaultQRif
    staleCopyRun (by decide +kernel) hops (by decide)

end ProbePool

end Prequal
