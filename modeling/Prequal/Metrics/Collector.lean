import Mathlib.Algebra.BigOperators.Group.Finset.Basic
import Mathlib.Algebra.BigOperators.Group.Finset.Piecewise
import Mathlib.Data.Rat.Defs
import Mathlib.Tactic.Ring
import Prequal.Foundation.Execution
import Prequal.Foundation.Runtime

/-!
# The metrics collector

Every query task that ends reports one outcome.  The histograms come from a
library, of which it is assumed that an auto-resizing histogram starts empty
and counts every value recorded, up to the largest `u64`.
-/

namespace Prequal

open Foundation

/-! ## Histograms -/

def u64Max : Nat := 2 ^ 64 - 1

structure Histogram where
  Carrier : Type
  new : Carrier
  record : Carrier → Nat → Carrier
  len : Carrier → Nat
  valueAtQuantile : Carrier → Rat → Nat
  mean : Carrier → Rat
  max : Carrier → Nat
  len_new : len new = 0
  len_record : ∀ h v, len (record h v) = min (len h + 1) u64Max

namespace Histogram

variable (H : Histogram)

def ofValues (values : List Nat) : H.Carrier := values.foldl H.record H.new

theorem ofValues_concat (values : List Nat) (v : Nat) :
    H.ofValues (values ++ [v]) = H.record (H.ofValues values) v := by
  simp [ofValues]

theorem len_ofValues (values : List Nat) :
    H.len (H.ofValues values) = min values.length u64Max := by
  induction values using List.reverseRecOn with
  | nil => simpa [ofValues] using H.len_new
  | append_singleton values v ih =>
      rw [ofValues_concat, H.len_record, ih, List.length_append,
        List.length_singleton]
      omega

def exact : Histogram where
  Carrier := List Nat
  new := []
  record := fun h v => v :: h
  len := fun h => min h.length u64Max
  valueAtQuantile := fun h q =>
    (h.mergeSort)[(q * (h.length - 1 : Nat)).floor.toNat]?.getD 0
  mean := fun h => (h.sum : Rat) / h.length
  max := fun h => h.foldr Nat.max 0
  len_new := by simp
  len_record := by
    intro h v
    rw [List.length_cons]
    omega

end Histogram

/-! ## The collector -/

inductive Report where
  | success (replica latencyUs : Nat)
  | failure
  deriving DecidableEq, Repr

namespace Report

def failed : Report → Bool
  | .success .. => false
  | .failure => true

def latency : Report → Option Nat
  | .success _ latencyUs => some latencyUs
  | .failure => none

def latencyOf (r : Nat) : Report → Option Nat
  | .success replica latencyUs => if replica = r then some latencyUs else none
  | .failure => none

@[simp] theorem failed_success (replica latencyUs : Nat) :
    (success replica latencyUs).failed = false := rfl

@[simp] theorem failed_failure : failure.failed = true := rfl

@[simp] theorem latency_success (replica latencyUs : Nat) :
    (success replica latencyUs).latency = some latencyUs := rfl

@[simp] theorem latency_failure : failure.latency = none := rfl

@[simp] theorem latencyOf_success (r replica latencyUs : Nat) :
    (success replica latencyUs).latencyOf r =
      if replica = r then some latencyUs else none := rfl

@[simp] theorem latencyOf_failure (r : Nat) : failure.latencyOf r = none := rfl

def Below (n : Nat) : Report → Prop
  | .success replica _ => replica < n
  | .failure => True

end Report

structure Inner (H : Histogram) where
  histogram : H.Carrier
  perReplica : List H.Carrier
  errorCount : Nat
  queryCount : Nat
  windowStart : Instant

/-- A computation under the lock, which keeps what it wrote if it unwinds. -/
abbrev MetricsM (H : Histogram) := ExceptT Panic (StateM (Inner H))

namespace MetricsCollector

variable {H : Histogram}

def new (H : Histogram) (nReplicas : Nat) (now : Instant) : Inner H where
  histogram := H.new
  perReplica := List.replicate nReplicas H.new
  errorCount := 0
  queryCount := 0
  windowStart := now

def record (replica latencyUs : Nat) : MetricsM H Unit := do
  modify fun inner => { inner with
    queryCount := wrapU64 (inner.queryCount + 1)
    histogram := H.record inner.histogram latencyUs }
  match (← get).perReplica[replica]? with
  | some h => modify fun inner => { inner with
      perReplica := inner.perReplica.set replica (H.record h latencyUs) }
  | none => throw .indexOutOfBounds

def recordError : MetricsM H Unit :=
  modify fun inner => { inner with
    queryCount := wrapU64 (inner.queryCount + 1)
    errorCount := wrapU64 (inner.errorCount + 1) }

def report : Report → MetricsM H Unit
  | .success replica latencyUs => record replica latencyUs
  | .failure => recordError

def exec (inner : Inner H) (x : MetricsM H Unit) :
    Except Panic Unit × Inner H :=
  x.run.run inner

/-! ## The summary -/

structure ReplicaSummary where
  queries : Nat
  p50Ms : Rat
  p99Ms : Rat
  deriving DecidableEq, Repr

structure LatencySummary where
  mean : Rat
  p50 : Rat
  p90 : Rat
  p99 : Rat
  p999 : Rat
  max : Rat
  deriving DecidableEq, Repr

structure Summary where
  policy : String
  offeredQps : Rat
  perReplica : List ReplicaSummary
  elapsedS : Rat
  queries : Nat
  errors : Nat
  latencyMs : LatencySummary
  deriving DecidableEq, Repr

def replicaSummary (h : H.Carrier) : ReplicaSummary where
  queries := H.len h
  p50Ms := H.valueAtQuantile h (1 / 2) / 1000
  p99Ms := H.valueAtQuantile h (99 / 100) / 1000

def summary (inner : Inner H) (policy : String) (qps : Rat) (now : Instant) :
    Summary where
  policy := policy
  offeredQps := qps
  perReplica := inner.perReplica.map replicaSummary
  elapsedS := durationSince now inner.windowStart / 1000000000
  queries := inner.queryCount
  errors := inner.errorCount
  latencyMs :=
    { mean := H.mean inner.histogram / 1000
      p50 := H.valueAtQuantile inner.histogram (1 / 2) / 1000
      p90 := H.valueAtQuantile inner.histogram (9 / 10) / 1000
      p99 := H.valueAtQuantile inner.histogram (99 / 100) / 1000
      p999 := H.valueAtQuantile inner.histogram (999 / 1000) / 1000
      max := H.max inner.histogram / 1000 }

/-! ## What the collector aggregates -/

/-- The collector holds what the reports, in their order, amount to. -/
structure Aggregates (n : Nat) (reports : List Report) (inner : Inner H) :
    Prop where
  queryCount : inner.queryCount = wrapU64 reports.length
  errorCount : inner.errorCount = wrapU64 (reports.countP Report.failed)
  histogram : inner.histogram =
    H.ofValues (reports.filterMap Report.latency)
  perReplica : inner.perReplica = (List.range n).map fun r =>
    H.ofValues (reports.filterMap (Report.latencyOf r))

theorem new_aggregates (H : Histogram) (n : Nat) (now : Instant) :
    Aggregates n [] (new H n now) where
  queryCount := rfl
  errorCount := rfl
  histogram := rfl
  perReplica := by
    simp [new, Histogram.ofValues, List.map_const']

private theorem wrapU64_succ (n : Nat) : wrapU64 (wrapU64 n + 1) =
    wrapU64 (n + 1) :=
  Nat.mod_add_mod _ _ _

theorem exec_recordError (inner : Inner H) :
    exec inner recordError = (.ok (), { inner with
      queryCount := wrapU64 (inner.queryCount + 1)
      errorCount := wrapU64 (inner.errorCount + 1) }) := rfl

theorem exec_record {inner : Inner H} {replica : Nat} {h : H.Carrier}
    (hget : inner.perReplica[replica]? = some h) (latencyUs : Nat) :
    exec inner (record replica latencyUs) = (.ok (), { inner with
      queryCount := wrapU64 (inner.queryCount + 1)
      histogram := H.record inner.histogram latencyUs
      perReplica := inner.perReplica.set replica
        (H.record h latencyUs) }) := by
  have hrun : exec inner (record replica latencyUs) =
      exec { inner with
        queryCount := wrapU64 (inner.queryCount + 1)
        histogram := H.record inner.histogram latencyUs }
        (match inner.perReplica[replica]? with
        | some h => modify fun inner => { inner with
            perReplica := inner.perReplica.set replica
              (H.record h latencyUs) }
        | none => throw .indexOutOfBounds) := rfl
  rw [hrun, hget]
  rfl

theorem Aggregates.report {n : Nat} {reports : List Report} {inner : Inner H}
    (h : Aggregates n reports inner) {e : Report} (he : e.Below n) :
    (exec inner (report e)).1 = .ok () ∧
      Aggregates n (reports ++ [e]) (exec inner (report e)).2 := by
  cases e with
  | failure =>
      refine ⟨rfl, ?_, ?_, ?_, ?_⟩
      · simp [MetricsCollector.report, exec_recordError, h.queryCount,
          wrapU64_succ]
      · simp [MetricsCollector.report, exec_recordError, h.errorCount,
          wrapU64_succ]
      · simpa [MetricsCollector.report, exec_recordError,
          List.filterMap_cons] using h.histogram
      · simpa [MetricsCollector.report, exec_recordError,
          List.filterMap_cons] using h.perReplica
  | success replica latencyUs =>
      have hlt : replica < n := he
      have hget : inner.perReplica[replica]? = some (H.ofValues
          (reports.filterMap (Report.latencyOf replica))) := by
        rw [h.perReplica, List.getElem?_map, List.getElem?_range hlt]
        rfl
      rw [MetricsCollector.report, exec_record hget]
      refine ⟨rfl, ?_, ?_, ?_, ?_⟩
      · simp [h.queryCount, wrapU64_succ]
      · simp [h.errorCount]
      · simp [h.histogram, Histogram.ofValues_concat]
      · simp only [h.perReplica]
        apply List.ext_getElem?
        intro r
        by_cases hr : r < n
        · by_cases heq : replica = r
          · subst heq
            simp [hr, List.filterMap_cons, Histogram.ofValues_concat]
          · simp [hr, heq, List.filterMap_cons]
        · simp [not_lt.mp hr]

/-! ## Counts of the summary -/

theorem length_latency (reports : List Report) :
    (reports.filterMap Report.latency).length +
      reports.countP Report.failed = reports.length := by
  induction reports with
  | nil => rfl
  | cons e reports ih =>
      cases e with
      | success replica latencyUs =>
          simp
          omega
      | failure =>
          simp [List.filterMap_cons, List.countP_cons]
          omega

theorem sum_latencyOf {n : Nat} {reports : List Report}
    (h : ∀ e ∈ reports, e.Below n) :
    ∑ r ∈ Finset.range n, (reports.filterMap (Report.latencyOf r)).length =
      (reports.filterMap Report.latency).length := by
  induction reports with
  | nil => simp
  | cons e reports ih =>
      have hrest := ih fun e' he' => h e' (List.mem_cons_of_mem e he')
      cases e with
      | failure => simpa [List.filterMap_cons] using hrest
      | success replica latencyUs =>
          have hlt : replica < n := h _ List.mem_cons_self
          have hcons : ∀ r, ((Report.success replica latencyUs ::
              reports).filterMap (Report.latencyOf r)).length =
              (if replica = r then 1 else 0) +
                (reports.filterMap (Report.latencyOf r)).length := by
            intro r
            by_cases heq : replica = r <;>
              simp [heq, Nat.add_comm]
          simp only [hcons, Finset.sum_add_distrib, hrest,
            Finset.sum_ite_eq, Finset.mem_range, hlt, if_true]
          simp [Nat.add_comm]

end MetricsCollector

end Prequal
