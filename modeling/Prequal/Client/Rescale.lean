import Prequal.Client.Runs
import Prequal.Servers.LatencyRing
import Mathlib.Tactic.Linarith
import Mathlib.Tactic.Positivity

/-!
# Rescaling on both sides of the wire

The client rescales a pooled latency by its own dispatches with the relation
the server uses for its estimates.  It starts from a number the server has
rounded already, so it can fall short of a fresh probe by the two roundings and
never exceeds it.
-/

namespace Prequal

open Foundation
open scoped List

/-! ## Selections in a row -/

namespace ProbePool

def selectionsOf (r : Nat) : ProbePool → Nat → Nat
  | _, 0 => 0
  | pool, count + 1 =>
      (if (pool.exec hclSelect).1 = .ok (some r) then 1 else 0) +
        selectionsOf r (PoolOp.hclSelect.apply pool) count

theorem apply_hclSelect_probe {pool : ProbePool} {j : Nat} {p : Probe}
    (hp : pool.probes[j]? = some p)
    (hfits : (pool.exec hclSelect).1 = .ok (some p.replica) →
      p.rif + 1 < 2 ^ 32) :
    ∃ p', (PoolOp.hclSelect.apply pool).probes[j]? = some p' ∧
      p'.origin = p.origin ∧
      p'.rif = p.rif +
        if (pool.exec hclSelect).1 = .ok (some p.replica) then 1 else 0 := by
  rcases exec_hclSelect_cases pool with
    ⟨e, -, hexec⟩ | ⟨-, hexec⟩ | ⟨i, c, -, -, hexec⟩
  · exact ⟨p, by simp [PoolOp.apply, hexec, hp], rfl, by simp [hexec]⟩
  · exact ⟨p, by simp [PoolOp.apply, hexec, hp], rfl, by simp [hexec]⟩
  · set q := if i = j then p.use else p with hq
    have hget : (PoolOp.hclSelect.apply pool).probes[j]? =
        some (Probe.compensate c.replica q) := by
      simp only [PoolOp.apply, hexec, dispatchTo_getElem?, hp,
        Option.map_some, hq]
    have horigin : q.origin = p.origin := by
      rw [hq]
      split <;> rfl
    have hrif : q.rif = p.rif := by
      rw [hq]
      split <;> rfl
    have hreplica : q.replica = p.replica :=
      congrArg Origin.replica horigin
    have hreturns : (pool.exec hclSelect).1 = .ok (some p.replica) ↔
        p.replica = c.replica := by
      rw [hexec]
      simp [eq_comm]
    have hqfits : q.replica = c.replica → q.rif + 1 < 2 ^ 32 := by
      rw [hreplica, hrif]
      exact fun hr => hfits (hreturns.mpr hr)
    refine ⟨_, hget, (Probe.compensate_origin _ _).trans horigin, ?_⟩
    rw [Probe.compensate_rif hqfits, hreplica, hrif]
    simp only [hreturns]
    split <;> rfl

theorem run_hclSelect_probe {pool : ProbePool} {j count : Nat} {p : Probe}
    (hp : pool.probes[j]? = some p)
    (hfits : p.rif + selectionsOf p.replica pool count < 2 ^ 32) :
    ∃ p', (pool.run (List.replicate count .hclSelect)).probes[j]? = some p' ∧
      p'.origin = p.origin ∧
      p'.rif = p.rif + selectionsOf p.replica pool count := by
  induction count generalizing pool p with
  | zero => exact ⟨p, hp, rfl, rfl⟩
  | succ count ih =>
      rw [selectionsOf] at hfits
      obtain ⟨q, hq, horigin, hrif⟩ := apply_hclSelect_probe hp (by
        intro hreturns
        rw [if_pos hreturns] at hfits
        omega)
      have hreplica : q.replica = p.replica :=
        congrArg Origin.replica horigin
      obtain ⟨p', hp', horigin', hrif'⟩ := ih hq (by
        rw [hreplica, hrif]
        omega)
      refine ⟨p', hp', horigin'.trans horigin, ?_⟩
      rw [hrif', hreplica, hrif, selectionsOf, Nat.add_assoc]

end ProbePool

/-! ## Two roundings -/

theorem rescale_twice (m g r k : Nat) :
    let e := m * (r + 1) / (g + 1)
    let e' := m * (r + k + 1) / (g + 1)
    let a := e * (r + k + 1) / (r + 1)
    e ≤ a ∧ a ≤ e' ∧
      (e' : Rat) < (a : Rat) + ((r : Rat) + k + 1) / ((r : Rat) + 1) + 1 := by
  intro e e' a
  have he : e * (g + 1) ≤ m * (r + 1) := Nat.div_mul_le_self _ _
  have ha : a * (r + 1) ≤ e * (r + k + 1) := Nat.div_mul_le_self _ _
  refine ⟨?_, ?_, ?_⟩
  · rw [Nat.le_div_iff_mul_le (Nat.succ_pos r)]
    exact Nat.mul_le_mul_left e (by omega)
  · rw [Nat.le_div_iff_mul_le (Nat.succ_pos g)]
    apply Nat.le_of_mul_le_mul_right _ (Nat.succ_pos r)
    calc
      a * (g + 1) * (r + 1) = a * (r + 1) * (g + 1) := by ring
      _ ≤ e * (r + k + 1) * (g + 1) := Nat.mul_le_mul_right _ ha
      _ = e * (g + 1) * (r + k + 1) := by ring
      _ ≤ m * (r + 1) * (r + k + 1) := Nat.mul_le_mul_right _ he
      _ = m * (r + k + 1) * (r + 1) := by ring
  · set x : Rat := ((r : Rat) + k + 1) / ((r : Rat) + 1) with hx
    have hr : (0 : Rat) < (r : Rat) + 1 := by positivity
    have hg : (0 : Rat) < (g : Rat) + 1 := by positivity
    have hxr : x * ((r : Rat) + 1) = (r : Rat) + k + 1 :=
      div_mul_cancel₀ _ hr.ne'
    have hxpos : 0 < x := by positivity
    have hlow : (m : Rat) * (r + 1) < ((e : Rat) + 1) * (g + 1) := by
      exact_mod_cast Nat.lt_mul_of_div_lt (Nat.lt_succ_self e)
        (Nat.succ_pos g)
    have hlocal : (e : Rat) * (r + k + 1) < ((a : Rat) + 1) * (r + 1) := by
      exact_mod_cast Nat.lt_mul_of_div_lt (Nat.lt_succ_self a)
        (Nat.succ_pos r)
    have htop : (e' : Rat) * (g + 1) ≤ m * (r + k + 1) := by
      exact_mod_cast Nat.div_mul_le_self (m * (r + k + 1)) (g + 1)
    -- One rounding of the server costs `x` at most, that of the client one.
    have hserver : (e' : Rat) < x * (e + 1) := by
      refine lt_of_mul_lt_mul_right ?_ hg.le
      calc
        (e' : Rat) * (g + 1) ≤ m * (r + k + 1) := htop
        _ = x * (m * (r + 1)) := by rw [← hxr]; ring
        _ < x * (((e : Rat) + 1) * (g + 1)) :=
          mul_lt_mul_of_pos_left hlow hxpos
        _ = x * (e + 1) * (g + 1) := by ring
    have hclient : x * e < (a : Rat) + 1 := by
      refine lt_of_mul_lt_mul_right ?_ hr.le
      calc
        x * e * ((r : Rat) + 1) = e * (r + k + 1) := by rw [← hxr]; ring
        _ < ((a : Rat) + 1) * (r + 1) := hlocal
    linarith

/--
Local compensation mirrors the server's estimator: after `k` selections of its
replica a pooled probe predicts what a fresh probe at RIF `r + k` would say,
never more and less by the two roundings at most.
-/
theorem compensation_mirrors_estimator (sort : SortByKey RingEntry)
    (ring : LatencyRing) (now : Instant) (r k : Nat)
    (hsame : ring.nearest sort r now ~ ring.nearest sort (r + k) now ∨
      (ring.candidates now).length ≤ 16)
    (hfits : ring.EstimateFits sort (r + k) now) :
    ∃ e e', ring.medianNear sort r now = .ok e ∧
      ring.medianNear sort (r + k) now = .ok e' ∧
      ∀ (pool : ProbePool) (j count replica : Nat) (cpuUtil : Rat)
        (receivedAt : Instant),
        pool.probes[j]? =
          some (Probe.fresh replica ⟨r, e, cpuUtil⟩ receivedAt) →
        ProbePool.selectionsOf replica pool count = k →
        r + k < 2 ^ 32 → e * (r + k + 1) < 2 ^ 64 →
        ∃ p, (pool.run (List.replicate count .hclSelect)).probes[j]? =
            some p ∧
          p.rif = r + k ∧ p.rifAtProbe = r ∧ p.latencyUs = e ∧
          e ≤ p.adjustedLatency ∧ p.adjustedLatency ≤ e' ∧
          (e' : Rat) < (p.adjustedLatency : Rat) +
            ((r : Rat) + k + 1) / ((r : Rat) + 1) + 1 := by
  have hnear : ring.nearest sort r now ~ ring.nearest sort (r + k) now := by
    rcases hsame with hsame | hfew
    · exact hsame
    · exact (LatencyRing.nearest_perm_of_few sort hfew r).trans
        (LatencyRing.nearest_perm_of_few sort hfew (r + k)).symm
  obtain ⟨m, g, he, he'⟩ := LatencyRing.medianNear_of_same sort hnear
    (Nat.le_add_right r k) hfits
  refine ⟨_, _, he, he', ?_⟩
  intro pool j count replica cpuUtil receivedAt hprobe hcount hrif hlatency
  obtain ⟨p, hp, horigin, hgain⟩ := ProbePool.run_hclSelect_probe hprobe
    (by rw [Probe.fresh, hcount]; exact hrif)
  have hprif : p.rif = r + k := by rw [hgain, Probe.fresh, hcount]
  have hreport : p.rifAtProbe = r := congrArg Origin.rifAtProbe horigin
  have hbase : p.latencyUs = m * (r + 1) / (g + 1) :=
    congrArg Origin.latencyUs horigin
  have hadjusted : p.adjustedLatency =
      m * (r + 1) / (g + 1) * (r + k + 1) / (r + 1) := by
    rw [Probe.adjustedLatency, hbase, hprif, hreport, wrapU64_of_lt hlatency]
  refine ⟨p, hp, hprif, hreport, hbase, ?_⟩
  rw [hadjusted]
  exact rescale_twice m g r k

def twoSamples : LatencyRing :=
  ⟨[⟨1, 1000, 1⟩, ⟨1, 1500, 2⟩], 0, 512, fromMillis 500⟩

theorem twoSamples_mirrored :
    ∃ p e', (ProbePool.run { ProbePool.new 4 (fromMillis 1000) 9 1 with
          probes := [Probe.fresh 0 ⟨2, 2250, 0⟩ 5] }
          (List.replicate 3 .hclSelect)).probes[0]? = some p ∧
      twoSamples.medianNear (.stable RingEntry) 5 9 = .ok e' ∧
      p.adjustedLatency ≤ e' := by
  have hfits : twoSamples.EstimateFits (.stable RingEntry) (2 + 3) 9 := by
    intro m hm
    obtain rfl : 1500 = m := Except.ok.inj hm
    decide
  obtain ⟨e, e', he, he', hmirror⟩ := compensation_mirrors_estimator
    (.stable RingEntry) twoSamples 9 2 3 (.inr (by decide)) hfits
  obtain rfl : 2250 = e := Except.ok.inj he
  obtain ⟨p, hp, -, -, -, -, hle, -⟩ := hmirror
    { ProbePool.new 4 (fromMillis 1000) 9 1 with
      probes := [Probe.fresh 0 ⟨2, 2250, 0⟩ 5] } 0 3 0 0 5 rfl
    (by decide +kernel) (by decide) (by decide)
  exact ⟨p, e', hp, he', hle⟩

end Prequal
